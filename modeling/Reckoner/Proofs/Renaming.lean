import Reckoner.Proofs.Blame
import Reckoner.Proofs.Stores

namespace Reckoner

namespace Builtin
variable {a b name : String}

theorem sameName_comm (a b : String) : sameName a b = sameName b a := BEq.comm

theorem function?_congr (h : sameName a b = true) : function? a = function? b := by
  simp only [sameName,beq_iff_eq] at h
  simp only [function?,sameName,h]

theorem constant?_congr (h : sameName a b = true) : constant? a = constant? b := by
  simp only [sameName,beq_iff_eq] at h
  simp only [constant?,sameName,h]

/-- The spelling of a name that the library uses: in lower case if the name is taken, or as it
is. -/
def standardName (name : String) : String :=
  match function? name, constant? name with
  | some f, _ => f.name
  | none, some c => c.name
  | none, none => name

theorem standardName_of_free (h : isReserved name = false) : standardName name = name := by
  simp only [standardName,function?_of_free h,constant?_of_free h]

theorem standardName_congr (h : sameName a b = true) (ha : isReserved a = true) :
    standardName a = standardName b := by
  simp only [standardName,← function?_congr h,← constant?_congr h]
  cases hf : function? a with
  | some f => rfl
  | none =>
    cases hc : constant? a with
    | some c => rfl
    | none => simp [isReserved,hf,hc] at ha

theorem sameName_standardName (h : isReserved name = true) :
    sameName name (standardName name) = true := by
  rw [sameName_comm]
  cases hf : function? name with
  | some f => simpa [standardName,hf] using List.find?_some hf
  | none =>
    cases hc : constant? name with
    | some c => simpa [standardName,hf,hc] using List.find?_some hc
    | none => simp [isReserved,hf,hc] at h

end Builtin

/-- Other names for all names. A name that is taken may only change the case of its letters. One
that is free stays free, and no two of those become the same. -/
structure Renaming where
  apply : String → String
  sameName_apply {name : String} (h : Builtin.isReserved name = true) :
    Builtin.sameName name (apply name) = true
  free_apply {name : String} (h : Builtin.isReserved name = false) :
    Builtin.isReserved (apply name) = false
  eq_of_apply_eq {a b : String} (ha : Builtin.isReserved a = false)
    (hb : Builtin.isReserved b = false) (h : apply a = apply b) : a = b

instance : CoeFun Renaming (fun _ => String → String) := ⟨Renaming.apply⟩

/-- No variable has a name that is taken. -/
def Environment.Free (env : Environment) : Prop :=
  ∀ name, env.contains name = true → Builtin.isReserved name = false

section Rename
variable (ρ : Renaming)

def Token.rename : Token → Token
  | ident name => ident (ρ name)
  | t => t

def Lexeme.rename (l : Lexeme) : Lexeme := ⟨l.token.rename ρ,l.position⟩

/-- What a fault says of a variable, it says of the variable's other name. -/
def Fault.rename : Fault → Fault
  | unknownVariable name p => unknownVariable (ρ name) p
  | f => f

def Environment.rename (env : Environment) : Environment :=
  Environment.empty.storeAll (env.toList.map (fun s => (ρ s.1,s.2)))

def Run.rename : Run → Run
  | value x rest env => value x (rest.map (Lexeme.rename ρ)) (env.rename ρ)
  | fault f rest env => fault (f.rename ρ) (rest.map (Lexeme.rename ρ)) (env.rename ρ)

def Part.rename : Part → Part
  | operand ts env => operand (ts.map (Lexeme.rename ρ)) (env.rename ρ)
  | chain bound ts env => chain bound (ts.map (Lexeme.rename ρ)) (env.rename ρ)
  | climb bound x ts env => climb bound x (ts.map (Lexeme.rename ρ)) (env.rename ρ)

end Rename

namespace Renaming
variable (ρ : Renaming) {name : String}

theorem function?_apply (name : String) : Builtin.function? (ρ name) = Builtin.function? name := by
  cases h : Builtin.isReserved name with
  | true => exact (Builtin.function?_congr (ρ.sameName_apply h)).symm
  | false => rw [Builtin.function?_of_free h,Builtin.function?_of_free (ρ.free_apply h)]

theorem constant?_apply (name : String) : Builtin.constant? (ρ name) = Builtin.constant? name := by
  cases h : Builtin.isReserved name with
  | true => exact (Builtin.constant?_congr (ρ.sameName_apply h)).symm
  | false => rw [Builtin.constant?_of_free h,Builtin.constant?_of_free (ρ.free_apply h)]

/-- The names that are taken in the spelling of the library, and the others as they are. -/
def standard : Renaming where
  apply := Builtin.standardName
  sameName_apply := Builtin.sameName_standardName
  free_apply h := by rwa [Builtin.standardName_of_free h]
  eq_of_apply_eq ha hb h := by
    rwa [Builtin.standardName_of_free ha,Builtin.standardName_of_free hb] at h

end Renaming

namespace Environment
variable {ρ : Renaming} {env : Environment} {name : String}

theorem Free.of_get? (h : env.Free) {x : Float} (hx : env.get? name = some x) :
    Builtin.isReserved name = false := by
  refine h name ?_
  rw [contains_eq_isSome,hx]
  rfl

theorem free_empty : empty.Free := by
  intro name h
  rw [contains_eq_isSome,get?_empty] at h
  cases h

theorem rename_empty (ρ : Renaming) : empty.rename ρ = empty := rfl

theorem Free.set (h : env.Free) (hn : Builtin.isReserved name = false) (x : Float) :
    (env.set name x).Free := by
  intro other ho
  by_cases he : name = other
  · exact he ▸ hn
  · rw [contains_eq_isSome,get?_set_of_ne env x he,← contains_eq_isSome] at ho
    exact h other ho

/-- Under its other name a variable has the value it had, and there are no other variables. -/
theorem get?_rename_eq_some_iff (h : env.Free) {other : String} {x : Float} :
    (env.rename ρ).get? other = some x ↔ ∃ name, ρ name = other ∧ env.get? name = some x := by
  rcases get?_storeAll (env.toList.map (fun s => (ρ s.1,s.2))) other with
    ⟨_,hstored,hget⟩ | ⟨hnone,hget⟩
  · obtain ⟨⟨n,y⟩,hlisted,he⟩ := List.mem_map.mp hstored
    cases he
    have held : env.get? n = some y := (env.mem_toList n y).mp hlisted
    rw [rename,hget,Option.some.injEq]
    constructor
    · rintro rfl
      exact ⟨n,rfl,held⟩
    · rintro ⟨name,hname,hx⟩
      obtain rfl := ρ.eq_of_apply_eq (h.of_get? hx) (h.of_get? held) hname
      rw [held] at hx
      exact Option.some.inj hx
  · rw [rename,hget,get?_empty]
    constructor
    · rintro ⟨⟩
    · rintro ⟨name,rfl,hx⟩
      exact absurd (List.mem_map.mpr ⟨(name,x),(env.mem_toList name x).mpr hx,rfl⟩) (hnone x)

theorem get?_rename (h : env.Free) (hn : Builtin.isReserved name = false) :
    (env.rename ρ).get? (ρ name) = env.get? name := by
  ext x
  rw [get?_rename_eq_some_iff h]
  constructor
  · rintro ⟨other,he,hx⟩
    rwa [← ρ.eq_of_apply_eq (h.of_get? hx) hn he]
  · intro hx
    exact ⟨name,rfl,hx⟩

theorem rename_set (h : env.Free) (hn : Builtin.isReserved name = false) (x : Float) :
    (env.set name x).rename ρ = (env.rename ρ).set (ρ name) x := by
  ext other y
  rw [get?_rename_eq_some_iff (h.set hn x)]
  by_cases he : ρ name = other
  · subst he
    rw [get?_set_self]
    have held : (env.set name x).get? name = some x := env.get?_set_self name x
    constructor
    · rintro ⟨n,hr,hy⟩
      rwa [ρ.eq_of_apply_eq ((h.set hn x).of_get? hy) hn hr,held] at hy
    · intro hy
      exact ⟨name,rfl,held.trans hy⟩
  · rw [get?_set_of_ne _ x he,get?_rename_eq_some_iff h]
    refine exists_congr fun n => and_congr_right fun hr => ?_
    have hne : name ≠ n := by
      rintro rfl
      exact he hr
    rw [get?_set_of_ne env x hne]

/-- Free names that stay as they are name the same variables. -/
theorem rename_of_fixed (h : env.Free)
    (hρ : ∀ {name}, Builtin.isReserved name = false → ρ name = name) : env.rename ρ = env := by
  ext other y
  rw [get?_rename_eq_some_iff h]
  constructor
  · rintro ⟨name,hr,hy⟩
    rwa [← hr,hρ (h.of_get? hy)]
  · intro hy
    exact ⟨other,hρ (h.of_get? hy),hy⟩

end Environment

section Lexemes
variable (ρ : Renaming)

theorem Token.rename_of_ne {t : Token} (h : ∀ name, t ≠ .ident name) : t.rename ρ = t := by
  cases t with
  | ident name => exact absurd rfl (h name)
  | _ => rfl

theorem Operator.ofToken?_rename (t : Token) : ofToken? (t.rename ρ) = ofToken? t := by
  cases t <;> rfl

theorem Lexeme.rename_operator (op : Operator) (p : Nat) :
    Lexeme.rename ρ ⟨op.token,p⟩ = ⟨op.token,p⟩ := by
  cases op <;> rfl

theorem next?_map_rename (ts : List Lexeme) :
    next? (ts.map (Lexeme.rename ρ)) = (next? ts).map (Token.rename ρ) := by
  cases ts <;> rfl

theorem Stops.rename {bound : Nat} {ts : List Lexeme} (h : Stops bound ts) :
    Stops bound (ts.map (Lexeme.rename ρ)) := by
  cases ts with
  | nil => exact h
  | cons l ts =>
    obtain ⟨t,p⟩ := l
    intro op ho
    rw [List.map_cons,Lexeme.rename,operator?_cons,Operator.ofToken?_rename] at ho
    exact h op ho

theorem next?_map_rename_ne {ts : List Lexeme} (h : next? ts ≠ some .equals) :
    next? (ts.map (Lexeme.rename ρ)) ≠ some .equals := by
  rw [next?_map_rename]
  intro he
  obtain ⟨t,ht,hr⟩ := Option.map_eq_some_iff.mp he
  cases t with
  | equals => exact h ht
  | _ => cases hr

end Lexemes

namespace Run
variable (ρ : Renaming) {r : Run} {name : String} {env : Environment}

theorem rename_close (r : Run) (p : Nat) : (r.close p).rename ρ = (r.rename ρ).close p := by
  cases r with
  | fault f rest env => cases f <;> rfl
  | value x rest env =>
    cases rest with
    | nil => rfl
    | cons l rest =>
      obtain ⟨t,q⟩ := l
      cases t <;> rfl

theorem rename_map (r : Run) (g : Float → Float) : (r.map g).rename ρ = (r.rename ρ).map g := by
  cases r <;> rfl

theorem rename_store (h : r.env.Free) (hn : Builtin.isReserved name = false) :
    (r.store name).rename ρ = (r.rename ρ).store (ρ name) := by
  cases r with
  | fault f rest env => rfl
  | value x rest env =>
    have stored : (env.set name x).rename ρ = (env.rename ρ).set (ρ name) x :=
      Environment.rename_set h hn x
    simp only [store,rename,stored]

theorem rename_read (h : env.Free) (hn : Builtin.isReserved name = false) (p : Nat)
    (ts : List Lexeme) :
    (read name p ts env).rename ρ = read (ρ name) p (ts.map (Lexeme.rename ρ)) (env.rename ρ) := by
  simp only [read,Environment.get?_rename h hn]
  cases env.get? name <;> rfl

theorem free_store (h : r.env.Free) (hn : Builtin.isReserved name = false) :
    (r.store name).env.Free := by
  cases r with
  | fault f rest env => exact h
  | value x rest env => exact Environment.Free.set h hn x

theorem env_read (name : String) (p : Nat) (ts : List Lexeme) (env : Environment) :
    (read name p ts env).env = env := by
  unfold read
  split <;> rfl

end Run

/-- With other names a part gives the same run with the other names. On the way no name that is
taken becomes a variable, so the variables can always be renamed. -/
theorem Part.Gives.rename (ρ : Renaming) {part : Part} {r : Run} (h : part.Gives r)
    (hfree : part.env.Free) : (part.rename ρ).Gives (r.rename ρ) ∧ r.env.Free := by
  induction h with
  | missing env => exact ⟨.missing _,hfree⟩
  | num x p ts env => exact ⟨.num x p _ _,hfree⟩
  | group p inner ih =>
    rw [Run.rename_close,Run.env_close]
    exact ⟨.group p (ih hfree).1,(ih hfree).2⟩
  | @function p name g ts env r hg argument ih =>
    have found : Builtin.function? (ρ name) = some g := (ρ.function?_apply name).trans hg
    rw [Run.rename_map,Run.env_map]
    exact ⟨.function p found (ih hfree).1,(ih hfree).2⟩
  | @constant p name c ts env hc =>
    have found : Builtin.constant? (ρ name) = some c := (ρ.constant?_apply name).trans hc
    exact ⟨.constant p _ _ found,hfree⟩
  | assignment p q hn value ih =>
    obtain ⟨gives,hr⟩ := ih hfree
    rw [Run.rename_store ρ hr hn]
    exact ⟨.assignment p q (ρ.free_apply hn) gives,Run.free_store hr hn⟩
  | lookup p env hn hts =>
    have free : env.Free := hfree
    rw [Run.rename_read ρ free hn,Run.env_read]
    exact ⟨.lookup p _ (ρ.free_apply hn) (next?_map_rename_ne ρ hts),hfree⟩
  | @unexpected p t ts env ht =>
    have kept : t.rename ρ = t := Token.rename_of_ne ρ (by rintro name rfl; cases ht)
    have gives := Gives.unexpected p (ts.map (Lexeme.rename ρ)) (env.rename ρ) ht
    refine ⟨?_,hfree⟩
    simpa [Part.rename,Run.rename,Fault.rename,Lexeme.rename,kept] using gives
  | chainFault first ih => exact ⟨.chainFault (ih hfree).1,(ih hfree).2⟩
  | chainValue first others ihf iho =>
    obtain ⟨gives,hmid⟩ := ihf hfree
    exact ⟨.chainValue gives (iho hmid).1,(iho hmid).2⟩
  | climbEnd x env hs => exact ⟨.climbEnd x _ (hs.rename ρ),hfree⟩
  | climbFault x p hb right ih =>
    refine ⟨?_,(ih hfree).2⟩
    rw [Part.rename,List.map_cons,Lexeme.rename_operator]
    exact .climbFault x p hb (ih hfree).1
  | climbValue p hb right others ihr iho =>
    obtain ⟨gives,hmid⟩ := ihr hfree
    refine ⟨?_,(iho hmid).2⟩
    rw [Part.rename,List.map_cons,Lexeme.rename_operator]
    exact .climbValue p hb gives (iho hmid).1

section Evaluation
variable (ρ : Renaming) {ts us : List Lexeme} {env : Environment}

theorem free_evaluateLexemes (ts : List Lexeme) (h : env.Free) :
    (evaluateLexemes ts env).2.Free := by
  by_cases hne : ts = []
  · subst hne
    exact h
  · rw [evaluateLexemes_eq hne]
    exact (((Part.chain 0 ts env).gives_run).rename Renaming.standard h).2

theorem evaluateLexemes_map_rename (ts : List Lexeme) (h : env.Free) :
    evaluateLexemes (ts.map (Lexeme.rename ρ)) (env.rename ρ) =
      ((evaluateLexemes ts env).1.mapError (Fault.rename ρ),
        (evaluateLexemes ts env).2.rename ρ) := by
  by_cases hne : ts = []
  · subst hne
    rfl
  · have renamed : chain 0 (ts.map (Lexeme.rename ρ)) (env.rename ρ) = (chain 0 ts env).rename ρ :=
      (((Part.chain 0 ts env).gives_run).rename ρ h).1.run_eq
    rw [evaluateLexemes_eq (by simpa using hne),evaluateLexemes_eq hne,renamed]
    cases chain 0 ts env <;> rfl

theorem rename_of_error {f : Fault} (h : (evaluateLexemes ts env).1 = .error f)
    (hρ : ∀ {name}, Builtin.isReserved name = false → ρ name = name) : f.rename ρ = f := by
  cases blames_of_error h with
  | unknownVariable hn hp henv => rw [Fault.rename,hρ hn]
  | _ => rfl

/-- Where the free names stay as they are, so does everything else. -/
theorem evaluateLexemes_of_fixed (ts : List Lexeme) (h : env.Free)
    (hρ : ∀ {name}, Builtin.isReserved name = false → ρ name = name) :
    evaluateLexemes (ts.map (Lexeme.rename ρ)) env = evaluateLexemes ts env := by
  have renamed := evaluateLexemes_map_rename ρ ts h
  rw [Environment.rename_of_fixed h hρ,
    Environment.rename_of_fixed (free_evaluateLexemes ts h) hρ] at renamed
  rw [renamed]
  cases he : (evaluateLexemes ts env).1 with
  | error f => rw [Except.mapError,rename_of_error ρ he hρ,← he]
  | ok x => rw [Except.mapError,← he]

/-- The same lexeme, but for the case of the letters in a name that is taken. -/
inductive Lexeme.Recased : Lexeme → Lexeme → Prop where
  | same (l : Lexeme) : Recased l l
  | name {a b : String} (p : Nat) (ha : Builtin.isReserved a = true)
      (h : Builtin.sameName a b = true) : Recased ⟨.ident a,p⟩ ⟨.ident b,p⟩

theorem map_rename_standard (h : List.Forall₂ Lexeme.Recased ts us) :
    ts.map (Lexeme.rename .standard) = us.map (Lexeme.rename .standard) := by
  induction h with
  | nil => rfl
  | @cons l m ts us hl others ih =>
    have same : l.rename .standard = m.rename .standard := by
      cases hl with
      | same => rfl
      | @name a b p ha hab =>
        have spelled : Renaming.standard a = Renaming.standard b :=
          Builtin.standardName_congr hab ha
        simp only [Lexeme.rename,Token.rename,spelled]
    rw [List.map_cons,List.map_cons,same,ih]

/-- With other names for the names in its lexemes and for those of the variables, an evaluation has
the same value, or the same fault in the same place, and leaves the variables it left under their
other names. So the name of a function or a constant can be spelled in any letter case, each time
anew. A variable is assigned and read under no name but its own, however alike another may be. -/
theorem evaluateLexemes_rename (ρ : Renaming) (ts : List Lexeme) {env : Environment}
    (h : env.Free) :
    evaluateLexemes (ts.map (Lexeme.rename ρ)) (env.rename ρ) =
      ((evaluateLexemes ts env).1.mapError (Fault.rename ρ),(evaluateLexemes ts env).2.rename ρ) ∧
    (∀ us, List.Forall₂ Lexeme.Recased ts us → evaluateLexemes us env = evaluateLexemes ts env) ∧
    ∀ name, Builtin.isReserved name = false →
      (¬ Assigns ts name → (evaluateLexemes ts env).2.get? name = env.get? name) ∧
      ∀ p x, (evaluateLexemes [⟨.ident name,p⟩] env).1 = .ok (some x) ↔ env.get? name = some x := by
  refine ⟨evaluateLexemes_map_rename ρ ts h,?_,?_⟩
  · intro us hus
    have fixed : ∀ {name}, Builtin.isReserved name = false → Renaming.standard name = name :=
      Builtin.standardName_of_free
    rw [← evaluateLexemes_of_fixed .standard us h fixed,← map_rename_standard hus,
      evaluateLexemes_of_fixed .standard ts h fixed]
  · intro name hn
    refine ⟨fun ha => get?_evaluateLexemes ha env,?_⟩
    intro p x
    have single : chain 0 [⟨.ident name,p⟩] env = .read name p [] env := by
      rw [chain_eq,operand_read hn (by simp),Run.read]
      cases env.get? name <;> simp [climb_nil]
    rw [evaluateLexemes_eq (by simp),single,Run.read]
    cases env.get? name <;> simp [Run.outcome,Except.map]

end Evaluation

/-- `x` and `X` change places, and the names that are taken are spelled as in the library. -/
def Renaming.swapped : Renaming where
  apply name := if name = "x" then "X" else if name = "X" then "x" else Builtin.standardName name
  sameName_apply {name} h := by
    have hx : name ≠ "x" := by
      rintro rfl
      exact absurd h (by decide)
    have hX : name ≠ "X" := by
      rintro rfl
      exact absurd h (by decide)
    rw [if_neg hx,if_neg hX]
    exact Builtin.sameName_standardName h
  free_apply {name} h := by
    split
    · decide
    · split
      · decide
      · rwa [Builtin.standardName_of_free h]
  eq_of_apply_eq {a b} ha hb h := by
    rw [Builtin.standardName_of_free ha,Builtin.standardName_of_free hb] at h
    grind

/-- In `(y = ROUND X) + x` the last name is that of no variable; in `(y = round x) + X` it is not
either. -/
theorem evaluateLexemes_rename_swapped :
    let ts : List Lexeme := [⟨.lparen,0⟩,⟨.ident "y",1⟩,⟨.equals,3⟩,⟨.ident "ROUND",5⟩,
      ⟨.ident "X",11⟩,⟨.rparen,12⟩,⟨.plus,14⟩,⟨.ident "x",16⟩]
    (Environment.empty.set "X" 2.5).Free ∧
    evaluateLexemes ts (Environment.empty.set "X" 2.5) = (.error (.unknownVariable "x" 16),
      (Environment.empty.set "X" 2.5).set "y" (Number.roundHalfUp 2.5)) ∧
    evaluateLexemes (ts.map (Lexeme.rename .swapped)) (Environment.empty.set "x" 2.5) =
      (.error (.unknownVariable "X" 16),
        (Environment.empty.set "x" 2.5).set "y" (Number.roundHalfUp 2.5)) := by
  intro ts
  have hX : Builtin.isReserved "X" = false := by decide
  have hy : Builtin.isReserved "y" = false := by decide
  have free : (Environment.empty.set "X" 2.5).Free := Environment.free_empty.set hX 2.5
  have fails : evaluateLexemes ts (Environment.empty.set "X" 2.5) =
      (.error (.unknownVariable "x" 16),
        (Environment.empty.set "X" 2.5).set "y" (Number.roundHalfUp 2.5)) := by
    with_unfolding_all rfl
  have renamed := (evaluateLexemes_rename .swapped ts free).1
  rw [fails,Environment.rename_set free hy,Environment.rename_set Environment.free_empty hX,
    Environment.rename_empty] at renamed
  exact ⟨free,fails,renamed⟩

end Reckoner
