import Reckoner.Proofs.Derivation

namespace Reckoner

theorem Run.andThen_assoc (r : Run) (f g : Float → List Lexeme → Environment → Run) :
    (r.andThen f).andThen g = r.andThen (fun x rest env => (f x rest env).andThen g) := by
  cases r <;> rfl

theorem Run.andThen_congr {r : Run} {f g : Float → List Lexeme → Environment → Run}
    (h : ∀ x rest env, r = .value x rest env → f x rest env = g x rest env) :
    r.andThen f = r.andThen g := by
  cases r with
  | fault => rfl
  | value x rest env => exact h x rest env rfl

/-- A climb down to a bound is a climb down to a higher one, gone on with. -/
theorem climb_split {bound b : Nat} (h : bound ≤ b) (x : Float) (ts : List Lexeme)
    (env : Environment) : climb bound x ts env = (climb b x ts env).andThen (climb bound) := by
  induction hn : ts.length using Nat.strongRecOn generalizing x ts env with
  | ind n ih =>
    by_cases hs : Stops b ts
    · rw [climb_of_stops hs,Run.andThen_value]
    · obtain ⟨op,p,us,rfl,hb⟩ := not_stops hs
      rw [climb_operator bound x p us env (Nat.lt_of_le_of_lt h hb),climb_operator b x p us env hb,
        Run.andThen_assoc]
      apply Run.andThen_congr
      intro y rest env' hr
      have shorter := chain_within op.rightBound us env
      rw [hr] at shorter
      refine ih rest.length ?_ (op.apply x y) rest env' rfl
      rw [← hn]
      exact Nat.lt_succ_of_lt shorter

theorem chain_split {bound b : Nat} (h : bound ≤ b) (ts : List Lexeme) (env : Environment) :
    chain bound ts env = (chain b ts env).andThen (climb bound) := by
  rw [chain_eq,chain_eq,Run.andThen_assoc]
  apply Run.andThen_congr
  intro x rest env' _
  exact climb_split h x rest env'

/-- The levels whose operators group from the left: a sum is made of products, and a product of
powers. -/
inductive Level where
  | sum
  | product

namespace Level
open Evaluation

def takes : Level → Operator → Bool
  | sum, .add | sum, .sub => true
  | product, .mul | product, .div | product, .mod => true
  | _, _ => false

/-- How many levels a level calls on the same lexemes before its own. -/
def rank : Level → Nat
  | product => 0
  | sum => 2

theorem rank_le (level : Level) : level.rank ≤ 2 := by
  cases level <;> simp [rank]

mutual

def simpleWithin : (ts : List Lexeme) → Environment → RunWithin ts.length
  | [], env => ⟨.fault .unexpectedEndOfInput [] env,trivial⟩
  | ⟨.num x,_⟩ :: ts, env => ⟨.value x ts env,Nat.lt_succ_self _⟩
  | ⟨.lparen,p⟩ :: ts, env =>
    let r := itemsWithin .sum ts env
    ⟨r.1.close p,(r.2.close p).mono (Nat.le_succ _)⟩
  | ⟨.ident name,p⟩ :: ts, env =>
    match Builtin.function? name with
    | some g =>
      let r := simpleWithin ts env
      ⟨r.1.map g.apply,(r.2.map g.apply).mono (Nat.le_succ _)⟩
    | none =>
      match Builtin.constant? name with
      | some c => ⟨.value c.value ts env,Nat.lt_succ_self _⟩
      | none =>
        match ts with
        | ⟨.equals,_⟩ :: ts =>
          let r := itemsWithin .sum ts env
          ⟨r.1.store name,(r.2.store name).mono (Nat.le_add_right _ 2)⟩
        | ts => ⟨.read name p ts env,Run.within_read name p ts env⟩
  | ⟨t,p⟩ :: ts, env => ⟨.fault (.unexpectedToken t p) ts env,trivial⟩
termination_by ts => 6 * ts.length
decreasing_by all_goals simp only [rank,List.length_cons]; omega

def powerWithin (ts : List Lexeme) (env : Environment) : RunWithin ts.length :=
  match simpleWithin ts env with
  | ⟨.fault f rest env,_⟩ => ⟨.fault f rest env,trivial⟩
  | ⟨.value x rest env,h⟩ =>
    match rest,h with
    | [],h => ⟨.value x [] env,h⟩
    | ⟨t,p⟩ :: rest,h =>
      if t = .caret then
        have hlen : rest.length + 1 < ts.length := h
        let r := powerWithin rest env
        ⟨r.1.map (Operator.pow.apply x),(r.2.map _).mono (Nat.le_of_lt (Nat.lt_of_succ_lt hlen))⟩
      else ⟨.value x (⟨t,p⟩ :: rest) env,h⟩
termination_by 6 * ts.length + 1

def itemWithin (level : Level) (ts : List Lexeme) (env : Environment) : RunWithin ts.length :=
  match level with
  | sum => itemsWithin product ts env
  | product => powerWithin ts env
termination_by 6 * ts.length + 2 + level.rank
decreasing_by all_goals simp only [rank]; omega

def itemsWithin (level : Level) (ts : List Lexeme) (env : Environment) : RunWithin ts.length :=
  match itemWithin level ts env with
  | ⟨.fault f rest env,_⟩ => ⟨.fault f rest env,trivial⟩
  | ⟨.value x rest env,h⟩ =>
    have hlen : rest.length < ts.length := h
    let r := othersWithin level x rest env
    ⟨r.1,r.2.mono hlen⟩
termination_by 6 * ts.length + 3 + level.rank

def othersWithin (level : Level) (x : Float) (ts : List Lexeme) (env : Environment) :
    RunWithin (ts.length + 1) :=
  match ts with
  | [] => ⟨.value x [] env,Nat.lt_succ_self _⟩
  | ⟨t,p⟩ :: ts =>
    match Operator.ofToken? t with
    | none => ⟨.value x (⟨t,p⟩ :: ts) env,Nat.lt_succ_self _⟩
    | some op =>
      if level.takes op then
        match itemWithin level ts env with
        | ⟨.fault f rest env,_⟩ => ⟨.fault f rest env,trivial⟩
        | ⟨.value y rest env,h⟩ =>
          have hlen : rest.length < ts.length := h
          let r := othersWithin level (op.apply x y) rest env
          ⟨r.1,r.2.mono (Nat.le_trans hlen (Nat.le_add_right _ 2))⟩
      else ⟨.value x (⟨t,p⟩ :: ts) env,Nat.lt_succ_self _⟩
termination_by 6 * ts.length
decreasing_by
  · have := level.rank_le
    simp only [List.length_cons]
    omega
  · simp only [List.length_cons]
    omega

end

/-- The run over a simple expression: a number, a group, a function with its argument, a constant,
an assignment or a variable. -/
def simple (ts : List Lexeme) (env : Environment) : Run := (simpleWithin ts env).1

/-- The run over a simple expression, and over `^` and a power if they follow. -/
def power (ts : List Lexeme) (env : Environment) : Run := (powerWithin ts env).1

def item (level : Level) (ts : List Lexeme) (env : Environment) : Run := (itemWithin level ts env).1

/-- The run over the items of a level and the operators between them, applied from the left. -/
def items (level : Level) (ts : List Lexeme) (env : Environment) : Run :=
  (itemsWithin level ts env).1

def others (level : Level) (x : Float) (ts : List Lexeme) (env : Environment) : Run :=
  (othersWithin level x ts env).1

variable {level : Level} {x : Float} {ts : List Lexeme} {env : Environment}

theorem simple_eq_operand (ts : List Lexeme) (env : Environment)
    (hsimple : ∀ us env, us.length < ts.length → simple us env = operand us env)
    (hsum : ∀ us env, us.length < ts.length → items sum us env = chain 0 us env) :
    simple ts env = operand ts env := by
  cases ts with
  | nil => rw [operand_nil,simple,simpleWithin]
  | cons l us =>
    obtain ⟨t,p⟩ := l
    have hlen : us.length < (⟨t,p⟩ :: us : List Lexeme).length := Nat.lt_succ_self _
    cases t with
    | num x => rw [operand_num,simple,simpleWithin]
    | lparen =>
      rw [operand_lparen,← hsum us env hlen,simple,simpleWithin]
      rfl
    | ident name =>
      change (simpleWithin _ _).1 = _
      unfold simpleWithin
      cases hg : Builtin.function? name with
      | some g =>
        rw [operand_function p us env hg,← hsimple us env hlen]
        rfl
      | none =>
        cases hc : Builtin.constant? name with
        | some c => rw [operand_constant p us env hc]
        | none =>
          have hn : Builtin.isReserved name = false := by simp only [Builtin.isReserved,hg,hc]; rfl
          dsimp only
          split
          · rename_i q vs
            rw [operand_assignment p vs env q hn,← hsum vs env (Nat.lt_of_succ_lt hlen)]
            rfl
          · rename_i hne
            rw [operand_variable p us env hn hne]
    | _ =>
      rw [operand_unexpected p us env rfl,simple,simpleWithin] <;> simp

theorem power_of_fault {f : Fault} {rest : List Lexeme} {env' : Environment}
    (h : simple ts env = .fault f rest env') : power ts env = .fault f rest env' := by
  rw [simple] at h
  rw [power,powerWithin]
  split <;> rename_i he <;> rw [he] at h <;> cases h
  rfl

theorem power_of_stop {rest : List Lexeme} {env' : Environment}
    (h : simple ts env = .value x rest env') (hr : next? rest ≠ some .caret) :
    power ts env = .value x rest env' := by
  rw [simple] at h
  rw [power,powerWithin]
  split <;> rename_i he <;> rw [he] at h <;> cases h
  split
  · rfl
  · rename_i t p us _
    rw [if_neg (fun ht => hr (congrArg some ht))]

theorem power_caret {p : Nat} {rest : List Lexeme} {env' : Environment}
    (h : simple ts env = .value x (⟨.caret,p⟩ :: rest) env') :
    power ts env = (power rest env').map (Operator.pow.apply x) := by
  rw [simple] at h
  rw [power,powerWithin]
  split <;> rename_i he <;> rw [he] at h <;> cases h
  rfl

theorem item_sum (ts : List Lexeme) (env : Environment) :
    item sum ts env = items product ts env := by
  rw [item,itemWithin,items]

theorem item_product (ts : List Lexeme) (env : Environment) :
    item product ts env = power ts env := by
  rw [item,itemWithin,power]

theorem items_eq (level : Level) (ts : List Lexeme) (env : Environment) :
    items level ts env = (item level ts env).andThen (others level) := by
  rw [items,itemsWithin,item]
  split <;> rename_i he <;> rw [he] <;> rfl

theorem others_of_stop (h : ∀ op ∈ operator? ts, level.takes op = false) :
    others level x ts env = .value x ts env := by
  cases ts with
  | nil => rw [others,othersWithin]
  | cons l us =>
    obtain ⟨t,p⟩ := l
    rw [others,othersWithin]
    cases ho : Operator.ofToken? t with
    | none => rfl
    | some op => simp only [h op ho,Bool.false_eq_true,if_false]

theorem others_operator {op : Operator} {p : Nat} (h : level.takes op = true) :
    others level x (⟨op.token,p⟩ :: ts) env =
      (item level ts env).andThen (fun y => others level (op.apply x y)) := by
  rw [others,othersWithin,item]
  simp only [op.ofToken?_token,h,if_true]
  split <;> rename_i he <;> rw [he] <;> rfl

/-- The bound from which climbing takes the operators of the level. -/
def bound : Level → Nat
  | sum => 0
  | product => 1

theorem takes_iff {op : Operator} : level.takes op = true ↔ op.priority = level.bound + 1 := by
  cases level <;> cases op <;> simp [takes,bound,Operator.priority]

theorem rightBound_of_takes {op : Operator} (h : level.takes op = true) :
    op.rightBound = level.bound + 1 := by
  cases level <;> cases op <;> first | rfl | cases h

/-- Behind an item no tighter operator is left, so a climb from there meets only the operators of
the level, and it stops where they end. -/
theorem others_eq_climb (hs : Stops (level.bound + 1) ts)
    (hitem : ∀ us env, us.length < ts.length → item level us env = chain (level.bound + 1) us env) :
    others level x ts env = climb level.bound x ts env := by
  induction hn : ts.length using Nat.strongRecOn generalizing x ts env with
  | ind n ih =>
    by_cases hstop : Stops level.bound ts
    · rw [climb_of_stops hstop]
      apply others_of_stop
      intro op ho
      have := hstop op ho
      cases htakes : level.takes op with
      | false => rfl
      | true =>
        have := takes_iff.mp htakes
        omega
    · obtain ⟨op,p,us,rfl,hb⟩ := not_stops hstop
      have hop : op.priority ≤ level.bound + 1 := hs op op.ofToken?_token
      have htakes : level.takes op = true := takes_iff.mpr (Nat.le_antisymm hop hb)
      rw [others_operator htakes,climb_operator _ x p us env hb,rightBound_of_takes htakes,
        hitem us env (Nat.lt_succ_self _)]
      apply Run.andThen_congr
      intro y rest env' hr
      have shorter := chain_within (level.bound + 1) us env
      rw [hr] at shorter
      have hlen : rest.length < n := by
        rw [← hn]
        exact Nat.lt_succ_of_lt shorter
      refine ih rest.length hlen (stops_of_chain hr) ?_ rfl
      intro vs env'' hv
      exact hitem vs env'' (Nat.lt_trans hv (hn ▸ hlen))

theorem items_eq_chain
    (hitem : ∀ us env, us.length ≤ ts.length → item level us env = chain (level.bound + 1) us env) :
    items level ts env = chain level.bound ts env := by
  rw [items_eq,chain_split (Nat.le_succ level.bound),hitem ts env (Nat.le_refl _)]
  apply Run.andThen_congr
  intro x rest env' hr
  have shorter := chain_within (level.bound + 1) ts env
  rw [hr] at shorter
  apply others_eq_climb (stops_of_chain hr)
  intro us env'' hu
  exact hitem us env'' (Nat.le_of_lt (Nat.lt_trans hu shorter))

theorem power_eq_chain (hsimple : simple ts env = operand ts env)
    (hpower : ∀ us env, us.length < ts.length → power us env = chain 2 us env) :
    power ts env = chain 2 ts env := by
  rw [chain_eq,← hsimple]
  have shorter := operand_within ts env
  rw [← hsimple] at shorter
  cases hr : simple ts env with
  | fault f rest env' => rw [power_of_fault hr,Run.andThen_fault]
  | value x rest env' =>
    rw [hr] at shorter
    rw [Run.andThen_value]
    by_cases hc : next? rest = some .caret
    · obtain ⟨p,us,rfl⟩ := next?_eq_some_iff.mp hc
      have hlen : us.length < ts.length := Nat.lt_of_succ_lt shorter
      have hpow : 2 < Operator.pow.priority := Nat.lt_succ_self 2
      have hclimb := climb_operator 2 x p us env' hpow
      rw [power_caret hr,hpower us env' hlen]
      refine Eq.trans ?_ hclimb.symm
      change _ = (chain 2 us env').andThen _
      cases hright : chain 2 us env' with
      | fault f rest env'' => rfl
      | value y rest env'' =>
        rw [Run.andThen_value,climb_of_stops (stops_of_chain hright)]
        rfl
    · rw [power_of_stop hr hc]
      refine (climb_of_stops ?_).symm
      intro op ho
      cases op with
      | pow =>
        obtain ⟨p,us,hus⟩ := operator?_eq_some_iff.mp ho
        exact absurd (next?_eq_some_iff.mpr ⟨p,us,hus⟩) hc
      | _ => simp [Operator.priority]

/-- What climbing and the levels have in common on some lexemes. -/
structure Agree (ts : List Lexeme) (env : Environment) : Prop where
  simple : simple ts env = operand ts env
  power : power ts env = chain 2 ts env
  product : items product ts env = chain 1 ts env
  sum : items sum ts env = chain 0 ts env

/-- All levels at once, by induction on the number of lexemes: a level calls those inside it on the
same lexemes, and a group or an assignment calls the outermost level on fewer. -/
theorem agree (ts : List Lexeme) (env : Environment) : Agree ts env := by
  induction hn : ts.length using Nat.strongRecOn generalizing ts env with
  | ind n ih =>
    have below : ∀ us env, us.length < n → Agree us env :=
      fun us env hu => ih us.length hu us env rfl
    have simples : ∀ us env, us.length ≤ n → simple us env = operand us env := by
      intro us env hlen
      apply simple_eq_operand
      · intro vs env hv
        exact (below vs env (Nat.lt_of_lt_of_le hv hlen)).simple
      · intro vs env hv
        exact (below vs env (Nat.lt_of_lt_of_le hv hlen)).sum
    have powers : ∀ us env, us.length ≤ n → power us env = chain 2 us env := by
      intro us env hlen
      apply power_eq_chain (simples us env hlen)
      intro vs env hv
      exact (below vs env (Nat.lt_of_lt_of_le hv hlen)).power
    have products : ∀ us env, us.length ≤ n → items product us env = chain 1 us env := by
      intro us env hlen
      apply items_eq_chain
      intro vs env hv
      rw [item_product]
      exact powers vs env (Nat.le_trans hv hlen)
    have hle := Nat.le_of_eq hn
    refine ⟨simples ts env hle,powers ts env hle,products ts env hle,?_⟩
    apply items_eq_chain
    intro us env hu
    rw [item_sum]
    exact products us env (Nat.le_trans hu hle)

end Level

end Reckoner
