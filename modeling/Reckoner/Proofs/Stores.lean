import Reckoner.Proofs.Derivation

namespace Reckoner

/-- Stores values in variables, the first of the list first. -/
def Environment.storeAll (env : Environment) (stores : List (String × Float)) : Environment :=
  stores.foldl (fun env s => env.set s.1 s.2) env

/-- Somewhere the name stands right before a sign of assignment. -/
def Assigns (ts : List Lexeme) (name : String) : Prop :=
  ∃ p q, [⟨.ident name,p⟩,⟨.equals,q⟩] <:+: ts

/-- The lexemes mention a variable. -/
def Mentions (ts : List Lexeme) (name : String) : Prop :=
  Builtin.isReserved name = false ∧ ∃ p, ⟨.ident name,p⟩ ∈ ts

namespace Environment
variable (stores : List (String × Float))

theorem storeAll_append (env : Environment) (first second : List (String × Float)) :
    env.storeAll (first ++ second) = (env.storeAll first).storeAll second :=
  List.foldl_append

/-- After the stores a name has the value that was stored last, or its own. Which of the two it is
does not depend on the variables before. -/
theorem get?_storeAll (name : String) :
    (∃ x, (name,x) ∈ stores ∧ ∀ env : Environment, (env.storeAll stores).get? name = some x) ∨
      (∀ x, (name,x) ∉ stores) ∧
        ∀ env : Environment, (env.storeAll stores).get? name = env.get? name := by
  induction stores with
  | nil => exact .inr ⟨by simp,fun _ => rfl⟩
  | cons s stores ih =>
    obtain ⟨other,y⟩ := s
    rcases ih with ⟨x,hx,hget⟩ | ⟨hnone,hget⟩
    · exact .inl ⟨x,List.mem_cons_of_mem _ hx,fun env => hget (env.set other y)⟩
    · by_cases hn : other = name
      · subst hn
        refine .inl ⟨y,List.mem_cons_self,?_⟩
        intro env
        exact (hget (env.set other y)).trans (env.get?_set_self other y)
      · refine .inr ⟨?_,?_⟩
        · intro x hx
          rcases List.mem_cons.mp hx with he | hx
          · cases he
            exact hn rfl
          · exact hnone x hx
        · intro env
          exact (hget (env.set other y)).trans (env.get?_set_of_ne y hn)

theorem size_le_storeAll (env : Environment) : env.size ≤ (env.storeAll stores).size := by
  induction stores generalizing env with
  | nil => exact Nat.le_refl _
  | cons s stores ih => exact Nat.le_trans (env.size_le_set s.1 s.2) (ih (env.set s.1 s.2))

end Environment

namespace Run

def withEnv (env : Environment) : Run → Run
  | value x rest _ => value x rest env
  | fault f rest _ => fault f rest env

theorem withEnv_close (env : Environment) (p : Nat) (r : Run) :
    (r.close p).withEnv env = (r.withEnv env).close p := by
  cases r with
  | fault f rest env => rfl
  | value x rest env => unfold close withEnv; grind

theorem withEnv_map (env : Environment) (g : Float → Float) (r : Run) :
    (r.map g).withEnv env = (r.withEnv env).map g := by
  cases r <;> rfl

theorem env_close (p : Nat) (r : Run) : (r.close p).env = r.env := by
  unfold close
  split <;> rfl

theorem env_map (g : Float → Float) (r : Run) : (r.map g).env = r.env := by
  cases r <;> rfl

end Run

namespace Part

def env : Part → Environment
  | operand _ env => env
  | chain _ _ env => env
  | climb _ _ _ env => env

def withEnv (env : Environment) : Part → Part
  | operand ts _ => operand ts env
  | chain bound ts _ => chain bound ts env
  | climb bound x ts _ => climb bound x ts env

end Part

/-- For the variables that the lexemes mention, `B` has the values that `A` has. Where `A` has none,
`B` has none either, unless more is allowed. -/
def ReadsAs (more : Prop) (ls : List Lexeme) (A B : Environment) : Prop :=
  ∀ name, Mentions ls name → A.get? name = B.get? name ∨ more ∧ A.get? name = none

/-- The same stores on both sides leave nothing else to be read. -/
theorem ReadsAs.storeAll {more : Prop} {ls : List Lexeme} {A B : Environment}
    (h : ReadsAs more ls A B) (stores : List (String × Float)) :
    ReadsAs more ls (A.storeAll stores) (B.storeAll stores) := by
  intro name hname
  rcases Environment.get?_storeAll stores name with ⟨x,_,hget⟩ | ⟨_,hget⟩
  · exact .inl ((hget A).trans (hget B).symm)
  · rw [hget A,hget B]
    exact h name hname

/-- From `B` the part gives the run that it gives from its own variables, with the same stores. -/
def Part.Replays (ls : List Lexeme) (B : Environment) (part : Part) (r : Run) : Prop :=
  ∃ stores : List (String × Float),
    (∀ s ∈ stores, Assigns ls s.1 ∧ Builtin.isReserved s.1 = false) ∧
    r.env = part.env.storeAll stores ∧ (part.withEnv B).Gives (r.withEnv (B.storeAll stores))

namespace Part.Replays
variable {ls ts rest : List Lexeme} {A A' B : Environment} {r : Run} {part : Part}

theorem same (henv : r.env = part.env) (h : (part.withEnv B).Gives (r.withEnv B)) :
    part.Replays ls B r :=
  ⟨[],by simp,henv,h⟩

theorem group (p : Nat) (h : (chain 0 ts A).Replays ls B r) :
    (operand (⟨.lparen,p⟩ :: ts) A).Replays ls B (r.close p) := by
  obtain ⟨stores,hstores,henv,hgives⟩ := h
  refine ⟨stores,hstores,(r.env_close p).trans henv,?_⟩
  rw [Run.withEnv_close]
  exact .group p hgives

theorem function (p : Nat) {name : String} {g : Builtin.Function}
    (hg : Builtin.function? name = some g) (h : (operand ts A).Replays ls B r) :
    (operand (⟨.ident name,p⟩ :: ts) A).Replays ls B (r.map g.apply) := by
  obtain ⟨stores,hstores,henv,hgives⟩ := h
  refine ⟨stores,hstores,(r.env_map g.apply).trans henv,?_⟩
  rw [Run.withEnv_map]
  exact .function p hg hgives

/-- An assignment stores after all that its value stores. -/
theorem assignment {p q : Nat} {name : String} (hn : Builtin.isReserved name = false)
    (hls : Assigns ls name) (h : (chain 0 ts A).Replays ls B r) :
    (operand (⟨.ident name,p⟩ :: ⟨.equals,q⟩ :: ts) A).Replays ls B (r.store name) := by
  obtain ⟨stores,hstores,henv,hgives⟩ := h
  have hrun := Gives.assignment p q hn hgives
  cases r with
  | fault f rest env => exact ⟨stores,hstores,henv,hrun⟩
  | value x rest env =>
    refine ⟨stores ++ [(name,x)],?_,?_,?_⟩
    · intro s hs
      rcases List.mem_append.mp hs with hs | hs
      · exact hstores s hs
      · obtain rfl := List.mem_singleton.mp hs
        exact ⟨hls,hn⟩
    · rw [Environment.storeAll_append]
      exact congrArg (fun env => env.set name x) henv
    · rw [Environment.storeAll_append]
      exact hrun

/-- What stands under the same name is read on both sides, or the name is unknown on both. -/
theorem lookup (p : Nat) {more : Prop} {name : String} (hn : Builtin.isReserved name = false)
    (hts : next? ts ≠ some .equals) (hB : A.get? name = B.get? name ∨ more ∧ A.get? name = none)
    (hmore : more → ∀ n q, (Run.read name p ts A).outcome ≠ .error (.unknownVariable n q)) :
    (operand (⟨.ident name,p⟩ :: ts) A).Replays ls B (.read name p ts A) := by
  have hrun := Gives.lookup p B hn hts
  rcases hB with hB | ⟨hm,hA⟩
  · simp only [Run.read,hB] at hrun ⊢
    cases hx : B.get? name with
    | some x =>
      rw [hx] at hrun
      exact same rfl hrun
    | none =>
      rw [hx] at hrun
      exact same rfl hrun
  · refine absurd ?_ (hmore hm name p)
    simp only [Run.read,hA]
    rfl

/-- Two parts in a row store first what the first one stores. -/
theorem followed {first whole : Part} {x : Float} (later : Part)
    (hfirst : first.Replays ls B (.value x rest A'))
    (hthen : ∀ stores, A' = first.env.storeAll stores → later.Replays ls (B.storeAll stores) r)
    (rule : ∀ B₁ B₂, (first.withEnv B).Gives (.value x rest B₁) →
      (later.withEnv B₁).Gives (r.withEnv B₂) → (whole.withEnv B).Gives (r.withEnv B₂))
    (hlater : later.env = A') (henv : whole.env = first.env) : whole.Replays ls B r := by
  obtain ⟨stores,hstores,hA,hgives⟩ := hfirst
  obtain ⟨stores',hstores',hA',hgives'⟩ := hthen stores hA
  refine ⟨stores ++ stores',?_,?_,?_⟩
  · intro s hs
    rcases List.mem_append.mp hs with hs | hs
    · exact hstores s hs
    · exact hstores' s hs
  · rw [hA',hlater,henv,Environment.storeAll_append]
    exact congrArg (fun env => env.storeAll stores') hA
  · rw [Environment.storeAll_append]
    exact rule _ _ hgives hgives'

end Part.Replays

theorem Part.Gives.replays {part : Part} {r : Run} (h : part.Gives r) {ls : List Lexeme}
    (hls : part.lexemes <:+ ls) {more : Prop} {B : Environment}
    (hB : ReadsAs more ls part.env B)
    (hmore : more → ∀ name p, r.outcome ≠ .error (.unknownVariable name p)) :
    part.Replays ls B r := by
  induction h generalizing B with
  | missing env => exact .same rfl (.missing B)
  | num x p ts env => exact .same rfl (.num x p ts B)
  | group p inner ih =>
    have inside := (List.suffix_cons _ _).trans hls
    refine (ih inside hB ?_).group p
    intro hm n q ho
    exact hmore hm n q (Run.outcome_close ho p)
  | function p hg argument ih =>
    have inside := (List.suffix_cons _ _).trans hls
    refine (ih inside hB ?_).function p hg
    intro hm n q ho
    exact hmore hm n q (Run.outcome_map ho _)
  | constant p ts env hc => exact .same rfl (.constant p ts B hc)
  | @assignment p q name ts env r hn value ih =>
    have inside := ((List.suffix_cons _ _).trans (List.suffix_cons _ _)).trans hls
    have assigns : Assigns ls name := by
      refine ⟨p,q,List.IsInfix.trans ?_ hls.isInfix⟩
      exact (List.prefix_append [⟨.ident name,p⟩,⟨.equals,q⟩] ts).isInfix
    refine (ih inside hB ?_).assignment hn assigns
    intro hm n q ho
    exact hmore hm n q (Run.outcome_store ho _)
  | @lookup p name ts env hn hts =>
    have mentions : Mentions ls name := ⟨hn,p,hls.subset List.mem_cons_self⟩
    exact .lookup p hn hts (hB name mentions) hmore
  | unexpected p ts env ht => exact .same rfl (.unexpected p ts B ht)
  | chainFault first ih =>
    obtain ⟨stores,hstores,henv,hgives⟩ := ih hls hB hmore
    exact ⟨stores,hstores,henv,.chainFault hgives⟩
  | chainValue first others ihf iho =>
    -- The first part has a value, so it misses no variable. What it stores is read alike after it.
    have hfirst := ihf hls hB (by intro _ _ _ ho; cases ho)
    refine hfirst.followed (.climb _ _ _ _) ?_ (fun _ _ => .chainValue) rfl rfl
    rintro stores rfl
    exact iho ((first.suffix rfl).trans hls) (hB.storeAll stores) hmore
  | climbEnd y env hs => exact .same rfl (.climbEnd y B hs)
  | climbFault y p hb right ih =>
    have behind := (List.suffix_cons _ _).trans hls
    obtain ⟨stores,hstores,henv,hgives⟩ := ih behind hB hmore
    exact ⟨stores,hstores,henv,.climbFault y p hb hgives⟩
  | climbValue p hb right others ihr iho =>
    have behind := (List.suffix_cons _ _).trans hls
    have hright := ihr behind hB (by intro _ _ _ ho; cases ho)
    refine hright.followed (.climb _ _ _ _) ?_ (fun _ _ => .climbValue p hb) rfl rfl
    rintro stores rfl
    exact iho ((right.suffix rfl).trans behind) (hB.storeAll stores) hmore

/-- With other variables the outcome is the same and so are the stores, as long as what the lexemes
mention reads the same. Variables may be added if none of them was missed. -/
theorem exists_stores {more : Prop} (ts : List Lexeme) {A B : Environment}
    (hB : ReadsAs more ts A B)
    (hmore : more → ∀ name p, (evaluateLexemes ts A).1 ≠ .error (.unknownVariable name p)) :
    ∃ stores : List (String × Float),
      (∀ s ∈ stores, Assigns ts s.1 ∧ Builtin.isReserved s.1 = false) ∧
      (evaluateLexemes ts A).2 = A.storeAll stores ∧
      evaluateLexemes ts B = ((evaluateLexemes ts A).1,B.storeAll stores) := by
  by_cases hne : ts = []
  · subst hne
    exact ⟨[],by simp,rfl,rfl⟩
  · rw [evaluateLexemes_eq hne] at hmore ⊢
    obtain ⟨stores,hstores,henv,hgives⟩ := ((Part.chain 0 ts A).gives_run).replays
      List.suffix_rfl hB (by
        intro hm name p ho
        simp only [Part.run] at ho
        exact hmore hm name p (by rw [ho]; rfl))
    have hrun := hgives.run_eq
    simp only [Part.run,Part.withEnv,Part.env] at henv hrun
    refine ⟨stores,hstores,henv,?_⟩
    rw [evaluateLexemes_eq hne,hrun]
    cases chain 0 ts A <;> rfl

/-- All that an evaluation does to the variables is to store values. -/
theorem evaluateLexemes_eq_storeAll (ts : List Lexeme) (env : Environment) :
    ∃ stores : List (String × Float),
      (∀ s ∈ stores, Assigns ts s.1 ∧ Builtin.isReserved s.1 = false) ∧
      (evaluateLexemes ts env).2 = env.storeAll stores := by
  have reads : ReadsAs False ts env env := fun _ _ => .inl rfl
  obtain ⟨stores,hstores,henv,_⟩ := exists_stores ts reads False.elim
  exact ⟨stores,hstores,henv⟩

theorem get?_evaluateLexemes {ts : List Lexeme} {name : String} (h : ¬ Assigns ts name)
    (env : Environment) : (evaluateLexemes ts env).2.get? name = env.get? name := by
  obtain ⟨stores,hstores,henv⟩ := evaluateLexemes_eq_storeAll ts env
  rw [henv]
  rcases Environment.get?_storeAll stores name with ⟨x,hx,_⟩ | ⟨_,hget⟩
  · exact absurd (hstores (name,x) hx).1 h
  · exact hget env

/-- An evaluation depends only on the variables that are mentioned. If two environments agree on
them, the outcome is the same and the same values are stored, so each name has its new value in both
or is left alone in both. If one has more of them than the other, and the other missed none, the
outcome is still the same, and no value of a mentioned variable is lost. -/
theorem evaluateLexemes_of_mentioned (ts : List Lexeme) (A B : Environment) :
    ((∀ name, Mentions ts name → A.get? name = B.get? name) →
      (evaluateLexemes ts B).1 = (evaluateLexemes ts A).1 ∧
      ∃ stores : List (String × Float),
        (∀ s ∈ stores, Assigns ts s.1 ∧ Builtin.isReserved s.1 = false) ∧
        (evaluateLexemes ts A).2 = A.storeAll stores ∧
        (evaluateLexemes ts B).2 = B.storeAll stores ∧
        ∀ name,
          (∃ x, (name,x) ∈ stores ∧ (evaluateLexemes ts A).2.get? name = some x ∧
            (evaluateLexemes ts B).2.get? name = some x) ∨
          (evaluateLexemes ts A).2.get? name = A.get? name ∧
            (evaluateLexemes ts B).2.get? name = B.get? name) ∧
    ((∀ name, Mentions ts name → ∀ x, A.get? name = some x → B.get? name = some x) →
      (∀ name p, (evaluateLexemes ts A).1 ≠ .error (.unknownVariable name p)) →
      (evaluateLexemes ts B).1 = (evaluateLexemes ts A).1 ∧
      ∀ name, Mentions ts name → ∀ x,
        (evaluateLexemes ts A).2.get? name = some x →
          (evaluateLexemes ts B).2.get? name = some x) := by
  constructor
  · intro hagree
    have reads : ReadsAs False ts A B := fun name hname => .inl (hagree name hname)
    obtain ⟨stores,hstores,hA,hB⟩ := exists_stores ts reads False.elim
    refine ⟨by rw [hB],stores,hstores,hA,by rw [hB],?_⟩
    intro name
    rw [hB,hA]
    rcases Environment.get?_storeAll stores name with ⟨x,hx,hget⟩ | ⟨_,hget⟩
    · exact .inl ⟨x,hx,hget A,hget B⟩
    · exact .inr ⟨hget A,hget B⟩
  · intro hcovers hout
    have reads : ReadsAs True ts A B := by
      intro name hname
      cases hx : A.get? name with
      | none => exact .inr ⟨trivial,rfl⟩
      | some x => exact .inl (hcovers name hname x hx).symm
    obtain ⟨stores,_,hA,hB⟩ := exists_stores ts reads (fun _ => hout)
    refine ⟨by rw [hB],?_⟩
    intro name hname x hx
    rw [hA] at hx
    rw [hB]
    rcases (reads.storeAll stores) name hname with he | ⟨_,hnone⟩
    · rwa [← he]
    · rw [hnone] at hx
      cases hx

/-- The lexemes of `(a = x) + x`. -/
def copied : List Lexeme :=
  [⟨.lparen,0⟩,⟨.ident "a",1⟩,⟨.equals,3⟩,⟨.ident "x",5⟩,⟨.rparen,6⟩,⟨.plus,8⟩,⟨.ident "x",10⟩]

theorem mentions_copied {name : String} (h : Mentions copied name) : name = "a" ∨ name = "x" := by
  obtain ⟨_,p,hp⟩ := h
  simp only [copied,List.mem_cons,Lexeme.mk.injEq,Token.ident.injEq] at hp
  simp at hp
  rcases hp with ⟨rfl,_⟩ | ⟨rfl,_⟩ | ⟨rfl,_⟩
  · exact .inl rfl
  · exact .inr rfl
  · exact .inr rfl

/-- A value under a reserved name is not read, and one that is assigned on the way is not missed. -/
theorem evaluateLexemes_of_mentioned_copied :
    (evaluateLexemes copied (Environment.empty.set "x" 2)).1 = .ok (some (2 + 2)) ∧
    (evaluateLexemes copied ((Environment.empty.set "x" 2).set "pi" 3)).1 =
      (evaluateLexemes copied (Environment.empty.set "x" 2)).1 ∧
    (evaluateLexemes copied ((Environment.empty.set "x" 2).set "a" 7)).1 =
      (evaluateLexemes copied (Environment.empty.set "x" 2)).1 := by
  have value : (evaluateLexemes copied (Environment.empty.set "x" 2)).1 = .ok (some (2 + 2)) := by
    with_unfolding_all rfl
  refine ⟨value,((evaluateLexemes_of_mentioned copied (Environment.empty.set "x" 2) _).1 ?_).1,
    ((evaluateLexemes_of_mentioned copied (Environment.empty.set "x" 2) _).2 ?_ ?_).1⟩
  · intro name hname
    rcases mentions_copied hname with rfl | rfl <;> simp [Environment.get?_set]
  · intro name hname x hx
    rcases mentions_copied hname with rfl | rfl
    · simp [Environment.get?_set] at hx
    · simpa [Environment.get?_set] using hx
  · intro name p
    rw [value]
    simp

end Reckoner
