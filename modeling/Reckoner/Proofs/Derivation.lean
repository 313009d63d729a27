import Reckoner.Evaluation.Climb

namespace Reckoner

variable {ts us rest : List Lexeme} {env env' : Environment} {bound : Nat} {x y : Float} {f : Fault}

/-- The token that the lexemes begin with. -/
def next? (ts : List Lexeme) : Option Token := ts.head?.map Lexeme.token

/-- The operator that the lexemes begin with. -/
def operator? (ts : List Lexeme) : Option Operator := (next? ts).bind Operator.ofToken?

/-- The lexemes begin with no operator that binds more tightly than the bound. -/
def Stops (bound : Nat) (ts : List Lexeme) : Prop := ∀ op ∈ operator? ts, op.priority ≤ bound

@[simp]
theorem next?_nil : next? [] = none := rfl

@[simp]
theorem next?_cons (t : Token) (p : Nat) (ts : List Lexeme) : next? (⟨t,p⟩ :: ts) = some t := rfl

theorem next?_append (h : ts ≠ []) : next? (ts ++ us) = next? ts := by
  cases ts with
  | nil => exact absurd rfl h
  | cons l ts => rfl

theorem next?_eq_some_iff {t : Token} : next? ts = some t ↔ ∃ p us, ts = ⟨t,p⟩ :: us := by
  constructor
  · intro h
    cases ts with
    | nil => cases h
    | cons l ts =>
      obtain ⟨u,p⟩ := l
      cases h
      exact ⟨p,ts,rfl⟩
  · intro h
    obtain ⟨p,us,rfl⟩ := h
    rfl

@[simp]
theorem operator?_nil : operator? [] = none := rfl

@[simp]
theorem operator?_cons (t : Token) (p : Nat) (ts : List Lexeme) :
    operator? (⟨t,p⟩ :: ts) = Operator.ofToken? t := rfl

theorem operator?_append (h : ts ≠ []) : operator? (ts ++ us) = operator? ts := by
  rw [operator?,next?_append h,operator?]

theorem operator?_eq_some_iff {op : Operator} :
    operator? ts = some op ↔ ∃ p us, ts = ⟨op.token,p⟩ :: us := by
  rw [← next?_eq_some_iff,operator?,Option.bind_eq_some_iff]
  constructor
  · intro h
    obtain ⟨t,ht,ho⟩ := h
    rw [ht,Operator.ofToken?_eq_some_iff.mp ho]
  · intro h
    exact ⟨op.token,h,op.ofToken?_token⟩

theorem Stops.mono {m n : Nat} (h : Stops m ts) (hm : m ≤ n) : Stops n ts :=
  fun op ho => Nat.le_trans (h op ho) hm

/-- Every operator has a priority, so above none there is no operator at all. -/
theorem stops_zero_iff : Stops 0 ts ↔ operator? ts = none := by
  constructor
  · intro h
    cases ho : operator? ts with
    | none => rfl
    | some op => exact absurd (h op ho) (Nat.not_le.mpr op.priority_pos)
  · intro h op ho
    rw [h] at ho
    cases ho

theorem stops_three (ts : List Lexeme) : Stops 3 ts := by
  intro op _
  cases op <;> simp [Operator.priority]

theorem not_stops (h : ¬ Stops bound ts) :
    ∃ op p us, ts = ⟨Operator.token op,p⟩ :: us ∧ bound < op.priority := by
  simp only [Stops,Classical.not_forall,Nat.not_le] at h
  obtain ⟨op,ho,hb⟩ := h
  obtain ⟨p,us,hts⟩ := operator?_eq_some_iff.mp ho
  exact ⟨op,p,us,hts,hb⟩

theorem climb_of_stops (h : Stops bound ts) : climb bound x ts env = .value x ts env := by
  cases ts with
  | nil => exact climb_nil bound x env
  | cons l ts =>
    obtain ⟨t,p⟩ := l
    cases ho : Operator.ofToken? t with
    | none => exact climb_other bound x p ts env ho
    | some op =>
      have hb : op.priority ≤ bound := h op ho
      rw [Operator.ofToken?_eq_some_iff.mp ho]
      exact climb_loose bound x p ts env hb

namespace Run
variable {r : Run} {g : Float → Float} {name : String} {p : Nat}

theorem map_eq_value (h : r.map g = .value x rest env) :
    ∃ y, r = .value y rest env ∧ x = g y := by
  cases r with
  | fault => cases h
  | value y rest env =>
    cases h
    exact ⟨y,rfl,rfl⟩

theorem store_eq_value (h : r.store name = .value x rest env) :
    ∃ env₀, r = .value x rest env₀ ∧ env = env₀.set name x := by
  cases r with
  | fault => cases h
  | value y rest env₀ =>
    cases h
    exact ⟨env₀,rfl,rfl⟩

theorem close_eq_value (h : r.close p = .value x rest env) :
    ∃ q, r = .value x (⟨.rparen,q⟩ :: rest) env := by
  unfold close at h
  split at h
  · rename_i y q rest' env₀
    cases h
    exact ⟨q,rfl⟩
  · cases h
  · cases h

theorem read_eq_value (h : read name p ts env = .value x rest env') :
    env.get? name = some x ∧ rest = ts ∧ env' = env := by
  unfold read at h
  split at h
  · rename_i y hy
    cases h
    exact ⟨hy,rfl,rfl⟩
  · cases h

theorem map_eq_fault (h : r.map g = .fault f rest env) : r = .fault f rest env := by
  cases r with
  | fault => exact h
  | value => cases h

theorem store_eq_fault (h : r.store name = .fault f rest env) : r = .fault f rest env := by
  cases r with
  | fault => exact h
  | value => cases h

/-- A group is at fault by itself only where no parenthesis stands behind its value. -/
theorem close_eq_fault (h : r.close p = .fault f rest env) :
    r = .fault f rest env ∨ ∃ x left, r = .value x left env ∧ next? left ≠ some .rparen ∧
      f = .unbalancedParentheses p ∧ rest = left.tail := by
  unfold close at h
  split at h
  · cases h
  · rename_i x left env₀ hne
    cases h
    refine .inr ⟨x,left,rfl,?_,rfl,rfl⟩
    intro hnext
    obtain ⟨q,us,rfl⟩ := next?_eq_some_iff.mp hnext
    exact hne q us rfl
  · exact .inl h

theorem read_eq_fault (h : read name p ts env = .fault f rest env') :
    env.get? name = none ∧ f = .unknownVariable name p ∧ rest = ts ∧ env' = env := by
  unfold read at h
  split at h
  · cases h
  · rename_i hnone
    cases h
    exact ⟨hnone,rfl,rfl,rfl⟩

theorem outcome_close (h : r.outcome = .error f) (p : Nat) : (r.close p).outcome = .error f := by
  cases r with
  | fault f rest env => exact h
  | value x rest env => cases h

theorem outcome_map (h : r.outcome = .error f) (g : Float → Float) :
    (r.map g).outcome = .error f := by
  cases r with
  | fault f rest env => exact h
  | value x rest env => cases h

theorem outcome_store (h : r.outcome = .error f) (name : String) :
    (r.store name).outcome = .error f := by
  cases r with
  | fault f rest env => exact h
  | value x rest env => cases h

theorem outcome_andThen (h : r.outcome = .error f)
    (next : Float → List Lexeme → Environment → Run) : (r.andThen next).outcome = .error f := by
  cases r with
  | fault f rest env => exact h
  | value x rest env => cases h

end Run

/-- A part of an evaluation, with what it begins from. -/
inductive Part where
  | operand (ts : List Lexeme) (env : Environment)
  | chain (bound : Nat) (ts : List Lexeme) (env : Environment)
  | climb (bound : Nat) (x : Float) (ts : List Lexeme) (env : Environment)

namespace Part

def run : Part → Run
  | operand ts env => Reckoner.operand ts env
  | chain bound ts env => Reckoner.chain bound ts env
  | climb bound x ts env => Reckoner.climb bound x ts env

/-- The priority up to which operators are left to what follows. An operand leaves them all. -/
def limit : Part → Nat
  | operand _ _ => 3
  | chain bound _ _ => bound
  | climb bound _ _ _ => bound

def lexemes : Part → List Lexeme
  | operand ts _ => ts
  | chain _ ts _ => ts
  | climb _ _ ts _ => ts

/-- The run that a part gives, with one rule for each thing that can happen. It is the evaluation
(`gives_iff`), so what holds of every run is proved by induction on it. -/
inductive Gives : Part → Run → Prop where
  | missing (env : Environment) :
      Gives (operand [] env) (.fault .unexpectedEndOfInput [] env)
  | num (x : Float) (p : Nat) (ts : List Lexeme) (env : Environment) :
      Gives (operand (⟨.num x,p⟩ :: ts) env) (.value x ts env)
  | group (p : Nat) {ts : List Lexeme} {env : Environment} {r : Run}
      (inner : Gives (chain 0 ts env) r) :
      Gives (operand (⟨.lparen,p⟩ :: ts) env) (r.close p)
  | function (p : Nat) {name : String} {g : Builtin.Function} {ts : List Lexeme}
      {env : Environment} {r : Run} (hg : Builtin.function? name = some g)
      (argument : Gives (operand ts env) r) :
      Gives (operand (⟨.ident name,p⟩ :: ts) env) (r.map g.apply)
  | constant (p : Nat) {name : String} {c : Builtin.Constant} (ts : List Lexeme)
      (env : Environment) (hc : Builtin.constant? name = some c) :
      Gives (operand (⟨.ident name,p⟩ :: ts) env) (.value c.value ts env)
  | assignment (p q : Nat) {name : String} {ts : List Lexeme} {env : Environment} {r : Run}
      (hn : Builtin.isReserved name = false) (value : Gives (chain 0 ts env) r) :
      Gives (operand (⟨.ident name,p⟩ :: ⟨.equals,q⟩ :: ts) env) (r.store name)
  | lookup (p : Nat) {name : String} {ts : List Lexeme} (env : Environment)
      (hn : Builtin.isReserved name = false) (hts : next? ts ≠ some .equals) :
      Gives (operand (⟨.ident name,p⟩ :: ts) env) (.read name p ts env)
  | unexpected (p : Nat) {t : Token} (ts : List Lexeme) (env : Environment)
      (ht : t.beginsOperand = false) :
      Gives (operand (⟨t,p⟩ :: ts) env) (.fault (.unexpectedToken t p) ts env)
  | chainFault {bound : Nat} {ts rest : List Lexeme} {env env' : Environment} {f : Fault}
      (first : Gives (operand ts env) (.fault f rest env')) :
      Gives (chain bound ts env) (.fault f rest env')
  | chainValue {bound : Nat} {ts rest : List Lexeme} {env env' : Environment} {x : Float} {r : Run}
      (first : Gives (operand ts env) (.value x rest env'))
      (others : Gives (climb bound x rest env') r) :
      Gives (chain bound ts env) r
  | climbEnd (x : Float) {bound : Nat} {ts : List Lexeme} (env : Environment)
      (hs : Stops bound ts) :
      Gives (climb bound x ts env) (.value x ts env)
  | climbFault (x : Float) (p : Nat) {bound : Nat} {op : Operator} {ts rest : List Lexeme}
      {env env' : Environment} {f : Fault} (hb : bound < op.priority)
      (right : Gives (chain op.rightBound ts env) (.fault f rest env')) :
      Gives (climb bound x (⟨op.token,p⟩ :: ts) env) (.fault f rest env')
  | climbValue (p : Nat) {bound : Nat} {op : Operator} {ts rest : List Lexeme}
      {env env' : Environment} {x y : Float} {r : Run} (hb : bound < op.priority)
      (right : Gives (chain op.rightBound ts env) (.value y rest env'))
      (others : Gives (climb bound (op.apply x y) rest env') r) :
      Gives (climb bound x (⟨op.token,p⟩ :: ts) env) r

end Part

theorem operand_read {name : String} {p : Nat} (hn : Builtin.isReserved name = false)
    (hts : next? ts ≠ some .equals) :
    operand (⟨.ident name,p⟩ :: ts) env = .read name p ts env := by
  apply operand_variable p ts env hn
  intro q us h
  exact hts (next?_eq_some_iff.mpr ⟨q,us,h⟩)

theorem Part.Gives.run_eq {part : Part} {r : Run} (h : part.Gives r) : part.run = r := by
  induction h with
  | missing env => exact operand_nil env
  | num x p ts env => exact operand_num x p ts env
  | group p inner ih => exact (operand_lparen p _ _).trans (congrArg (Run.close p) ih)
  | function p hg argument ih =>
    exact (operand_function p _ _ hg).trans (congrArg (Run.map _) ih)
  | constant p ts env hc => exact operand_constant p ts env hc
  | assignment p q hn value ih =>
    exact (operand_assignment p _ _ q hn).trans (congrArg (Run.store _) ih)
  | lookup p env hn hts => exact operand_read hn hts
  | unexpected p ts env ht => exact operand_unexpected p ts env ht
  | chainFault first ih =>
    simp only [run] at ih ⊢
    rw [chain_eq,ih,Run.andThen_fault]
  | chainValue first others ihf iho =>
    simp only [run] at ihf iho ⊢
    rw [chain_eq,ihf,Run.andThen_value,iho]
  | climbEnd x env hs => exact climb_of_stops hs
  | climbFault x p hb right ih =>
    simp only [run] at ih ⊢
    rw [climb_operator _ _ _ _ _ hb,ih,Run.andThen_fault]
  | climbValue p hb right others ihr iho =>
    simp only [run] at ihr iho ⊢
    rw [climb_operator _ _ _ _ _ hb,ihr,Run.andThen_value,iho]

/-- What a part has before it, with a chain before its own operand. -/
def Part.size : Part → Nat
  | operand ts _ => 2 * ts.length
  | chain _ ts _ => 2 * ts.length + 1
  | climb _ _ ts _ => 2 * ts.length

theorem Part.gives_operand (ts : List Lexeme) (env : Environment)
    (ih : ∀ part : Part, part.size < 2 * ts.length → part.Gives part.run) :
    Gives (operand ts env) (Reckoner.operand ts env) := by
  have smaller : ∀ {l : Lexeme} {us : List Lexeme}, l :: us = ts →
      2 * us.length + 1 < 2 * ts.length := by
    intro l us hts
    subst hts
    simp only [List.length_cons]
    omega
  cases ts with
  | nil =>
    rw [operand_nil]
    exact .missing env
  | cons l us =>
    obtain ⟨t,p⟩ := l
    have hlen := smaller rfl
    cases t with
    | num x =>
      rw [operand_num]
      exact .num x p us env
    | lparen =>
      rw [operand_lparen]
      exact .group p (ih (chain 0 us env) hlen)
    | ident name =>
      cases hg : Builtin.function? name with
      | some g =>
        rw [operand_function p us env hg]
        exact .function p hg (ih (operand us env) (Nat.lt_of_succ_lt hlen))
      | none =>
        cases hc : Builtin.constant? name with
        | some c =>
          rw [operand_constant p us env hc]
          exact .constant p us env hc
        | none =>
          have hn : Builtin.isReserved name = false := by simp only [Builtin.isReserved,hg,hc]; rfl
          by_cases he : next? us = some .equals
          · obtain ⟨q,vs,rfl⟩ := next?_eq_some_iff.mp he
            rw [operand_assignment p vs env q hn]
            refine .assignment p q hn (ih (chain 0 vs env) ?_)
            simp only [size,List.length_cons]
            omega
          · rw [operand_read hn he]
            exact .lookup p env hn he
    | _ =>
      rw [operand_unexpected p us env rfl]
      exact .unexpected p us env rfl

theorem Part.gives_chain (bound : Nat) (ts : List Lexeme) (env : Environment)
    (ih : ∀ part : Part, part.size < 2 * ts.length + 1 → part.Gives part.run) :
    Gives (chain bound ts env) (Reckoner.chain bound ts env) := by
  have first := ih (operand ts env) (Nat.lt_succ_self _)
  have shorter := operand_within ts env
  simp only [run] at first
  rw [chain_eq]
  cases hr : Reckoner.operand ts env with
  | fault f rest env' =>
    rw [hr] at first
    exact .chainFault first
  | value x rest env' =>
    rw [hr] at first shorter
    simp only [Run.Within] at shorter
    refine .chainValue first (ih (climb bound x rest env') ?_)
    simp only [size]
    omega

theorem Part.gives_climb (bound : Nat) (x : Float) (ts : List Lexeme) (env : Environment)
    (ih : ∀ part : Part, part.size < 2 * ts.length → part.Gives part.run) :
    Gives (climb bound x ts env) (Reckoner.climb bound x ts env) := by
  by_cases hs : Stops bound ts
  · rw [climb_of_stops hs]
    exact .climbEnd x env hs
  · obtain ⟨op,p,us,rfl,hb⟩ := not_stops hs
    have right := ih (chain op.rightBound us env) (by simp only [size,List.length_cons]; omega)
    have shorter := chain_within op.rightBound us env
    simp only [run] at right
    rw [climb_operator bound x p us env hb]
    cases hr : Reckoner.chain op.rightBound us env with
    | fault f rest env' =>
      rw [hr] at right
      exact .climbFault x p hb right
    | value y rest env' =>
      rw [hr] at right shorter
      simp only [Run.Within] at shorter
      refine .climbValue p hb right (ih (climb bound (op.apply x y) rest env') ?_)
      simp only [size,List.length_cons]
      omega

theorem Part.gives_run (part : Part) : part.Gives part.run := by
  induction h : part.size using Nat.strongRecOn generalizing part with
  | ind n ih =>
    have below : ∀ other : Part, other.size < part.size → other.Gives other.run :=
      fun other ho => ih other.size (h ▸ ho) other rfl
    cases part with
    | operand ts env => exact gives_operand ts env below
    | chain bound ts env => exact gives_chain bound ts env below
    | climb bound x ts env => exact gives_climb bound x ts env below

/-- The relation is the evaluation: every part gives its run and no other. -/
theorem Part.gives_iff {part : Part} {r : Run} : part.Gives r ↔ part.run = r :=
  ⟨Gives.run_eq,fun h => h ▸ part.gives_run⟩

/-- A part with a value has consumed every operator above its limit. -/
theorem Part.Gives.stops {part : Part} {r : Run} (h : part.Gives r)
    (hr : r = .value x rest env) : Stops part.limit rest := by
  induction h with
  | chainValue first others ihf iho => exact iho hr
  | climbEnd y env hs =>
    cases hr
    exact hs
  | climbValue p hb right others ihr iho => exact iho hr
  | chainFault | climbFault => cases hr
  | _ => exact stops_three rest

/-- What a part leaves is the end of what it was given. -/
theorem Part.Gives.suffix {part : Part} {r : Run} (h : part.Gives r)
    (hr : r = .value x rest env) : rest <:+ part.lexemes := by
  induction h generalizing x rest env with
  | missing => cases hr
  | num x p ts env =>
    cases hr
    exact List.suffix_cons _ _
  | group p inner ih =>
    obtain ⟨q,hq⟩ := Run.close_eq_value hr
    exact ((List.suffix_cons _ _).trans (ih hq)).trans (List.suffix_cons _ _)
  | function p hg argument ih =>
    obtain ⟨y,hy,_⟩ := Run.map_eq_value hr
    exact (ih hy).trans (List.suffix_cons _ _)
  | constant p ts env hc =>
    cases hr
    exact List.suffix_cons _ _
  | assignment p q hn value ih =>
    obtain ⟨env₀,hv,_⟩ := Run.store_eq_value hr
    exact ((ih hv).trans (List.suffix_cons _ _)).trans (List.suffix_cons _ _)
  | lookup p env hn hts =>
    obtain ⟨_,rfl,_⟩ := Run.read_eq_value hr
    exact List.suffix_cons _ _
  | unexpected => cases hr
  | chainFault => cases hr
  | chainValue first others ihf iho => exact (iho hr).trans (ihf rfl)
  | climbEnd y env hs =>
    cases hr
    exact List.suffix_rfl
  | climbFault => cases hr
  | climbValue p hb right others ihr iho =>
    exact ((iho hr).trans (ihr rfl)).trans (List.suffix_cons _ _)

theorem stops_of_chain (h : chain bound ts env = .value x rest env') : Stops bound rest :=
  (Part.gives_iff.mpr h : (Part.chain bound ts env).Gives _).stops rfl

theorem evaluateLexemes_eq {ts : List Lexeme} (h : ts ≠ []) (env : Environment) :
    evaluateLexemes ts env = ((chain 0 ts env).outcome.map some,(chain 0 ts env).env) := by
  cases ts with
  | nil => exact absurd rfl h
  | cons l ts => rfl

theorem evaluateLexemes_of_chain (h : chain 0 ts env = .value x rest env') :
    evaluateLexemes ts env = (.ok (some x),env') := by
  have hne : ts ≠ [] := by
    rintro rfl
    rw [chain_eq,operand_nil] at h
    cases h
  rw [evaluateLexemes_eq hne,h]
  rfl

/-- Lexemes with a value are a chain with that value, and what the chain leaves is ignored. -/
theorem chain_of_evaluateLexemes (h : evaluateLexemes ts env = (.ok (some x),env')) :
    chain 0 ts env = .value x (chain 0 ts env).rest env' := by
  have hne : ts ≠ [] := by
    rintro rfl
    cases h
  rw [evaluateLexemes_eq hne] at h
  cases hr : chain 0 ts env with
  | fault f rest env₀ =>
    rw [hr] at h
    cases h
  | value y rest env₀ =>
    rw [hr] at h
    cases h
    rfl

theorem chain_of_operand_fault (h : (operand ts env).outcome = .error f) :
    (chain bound ts env).outcome = .error f := by
  rw [chain_eq]
  exact Run.outcome_andThen h _

/-- An operand is a chain that leaves every operator. -/
theorem chain_three (ts : List Lexeme) (env : Environment) : chain 3 ts env = operand ts env := by
  rw [chain_eq]
  cases operand ts env with
  | fault f rest env' => rfl
  | value x rest env' => exact climb_of_stops (stops_three rest)

end Reckoner
