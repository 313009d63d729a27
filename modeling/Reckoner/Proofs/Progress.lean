import Reckoner.Proofs.Derivation
import Reckoner.Proofs.Machine

namespace Reckoner

open Machine

/-- The state in which a machine begins a part. -/
def Part.state (cursor : Nat) (waiting : List Frame) : Part → State
  | operand _ env => ⟨.operand,cursor,env,waiting⟩
  | chain bound _ env => ⟨.chain bound,cursor,env,waiting⟩
  | climb bound x _ env => ⟨.climb bound x,cursor,env,waiting⟩

/-- The state in which a machine ends a run. -/
def Run.state (cursor : Nat) (waiting : List Frame) : Run → State
  | value x _ env => ⟨.value x,cursor,env,waiting⟩
  | fault f _ env => ⟨.fault f,cursor,env,waiting⟩

section Steps
variable {ls ts : List Lexeme} {cursor bound p q : Nat} {env : Environment} {waiting : List Frame}
  {name : String} {x : Float} {r : Run}

theorem getElem?_of_drop {l : Lexeme} (h : ls.drop cursor = l :: ts) :
    ls[cursor]? = some l ∧ ls.drop (cursor + 1) = ts := by
  constructor
  · simpa [h] using (List.head?_drop (l := ls) (i := cursor)).symm
  · simpa [h] using (List.tail_drop (l := ls) (i := cursor)).symm

theorem getElem?_of_drop_nil (h : ls.drop cursor = []) : ls[cursor]? = none := by
  simpa [h] using (List.head?_drop (l := ls) (i := cursor)).symm

theorem next?_drop (ls : List Lexeme) (cursor : Nat) :
    next? (ls.drop cursor) = ls[cursor]?.map Lexeme.token := by
  simp [next?,List.head?_drop]

theorem operator?_drop (ls : List Lexeme) (cursor : Nat) :
    operator? (ls.drop cursor) = ls[cursor]?.bind (fun l => Operator.ofToken? l.token) := by
  rw [operator?,next?_drop,Option.bind_map]
  rfl

theorem step_missing (h : ls[cursor]? = none) :
    step ls ⟨.operand,cursor,env,waiting⟩ =
      some ⟨.fault .unexpectedEndOfInput,cursor,env,waiting⟩ := by
  simp only [step,State.operand,State.become,h]

theorem step_num (h : ls[cursor]? = some ⟨.num x,p⟩) :
    step ls ⟨.operand,cursor,env,waiting⟩ = some ⟨.value x,cursor + 1,env,waiting⟩ := by
  simp only [step,State.operand,State.become,State.advance,h]

theorem step_lparen (h : ls[cursor]? = some ⟨.lparen,p⟩) :
    step ls ⟨.operand,cursor,env,waiting⟩ =
      some ⟨.chain 0,cursor + 1,env,.group p :: waiting⟩ := by
  simp only [step,State.operand,State.await,State.advance,h]

theorem step_ident (h : ls[cursor]? = some ⟨.ident name,p⟩) :
    step ls ⟨.operand,cursor,env,waiting⟩ =
      some (State.identify ls ⟨.operand,cursor + 1,env,waiting⟩ name p) := by
  simp only [step,State.operand,State.advance,h]

theorem step_function {g : Builtin.Function} (h : ls[cursor]? = some ⟨.ident name,p⟩)
    (hg : Builtin.function? name = some g) :
    step ls ⟨.operand,cursor,env,waiting⟩ =
      some ⟨.operand,cursor + 1,env,.function name p :: waiting⟩ := by
  simp [step_ident h,State.identify,Builtin.isFunction,hg,State.await]

theorem step_constant {c : Builtin.Constant} (h : ls[cursor]? = some ⟨.ident name,p⟩)
    (hc : Builtin.constant? name = some c) :
    step ls ⟨.operand,cursor,env,waiting⟩ = some ⟨.value c.value,cursor + 1,env,waiting⟩ := by
  simp [step_ident h,State.identify,Builtin.isFunction,Builtin.function?_of_constant? hc,hc,
    State.become]

theorem step_assignment (h : ls[cursor]? = some ⟨.ident name,p⟩)
    (hn : Builtin.isReserved name = false) (hq : ls[cursor + 1]? = some ⟨.equals,q⟩) :
    step ls ⟨.operand,cursor,env,waiting⟩ =
      some ⟨.chain 0,cursor + 2,env,.assignment name :: waiting⟩ := by
  simp [step_ident h,State.identify,Builtin.isFunction,Builtin.function?_of_free hn,
    Builtin.constant?_of_free hn,hq,State.advance,State.await]

theorem step_variable (h : ls[cursor]? = some ⟨.ident name,p⟩)
    (hn : Builtin.isReserved name = false) (hts : next? (ls.drop (cursor + 1)) ≠ some .equals)
    (ts : List Lexeme) :
    step ls ⟨.operand,cursor,env,waiting⟩ =
      some ((Run.read name p ts env).state (cursor + 1) waiting) := by
  simp only [step_ident h,State.identify,Builtin.isFunction,Builtin.function?_of_free hn,
    Builtin.constant?_of_free hn,Option.isSome_none,Bool.false_eq_true,if_false]
  split
  · rename_i he
    simp [next?_drop,he] at hts
  · unfold Run.read
    cases env.get? name <;> rfl

theorem step_unexpected {t : Token} (h : ls[cursor]? = some ⟨t,p⟩) (ht : t.beginsOperand = false) :
    step ls ⟨.operand,cursor,env,waiting⟩ =
      some ⟨.fault (.unexpectedToken t p),cursor + 1,env,waiting⟩ := by
  cases t with
  | num | lparen | ident => cases ht
  | _ => simp only [step,State.operand,State.become,State.advance,h]

theorem step_stop (h : Stops bound (ls.drop cursor)) :
    step ls ⟨.climb bound x,cursor,env,waiting⟩ = some ⟨.value x,cursor,env,waiting⟩ := by
  simp only [step,State.climb,← operator?_drop]
  cases ho : operator? (ls.drop cursor) with
  | none => rfl
  | some op => exact congrArg some (if_pos (h op ho))

theorem step_operator {op : Operator} (h : ls[cursor]? = some ⟨op.token,p⟩)
    (hb : bound < op.priority) :
    step ls ⟨.climb bound x,cursor,env,waiting⟩ =
      some ⟨.chain op.rightBound,cursor + 1,env,.right bound op x :: waiting⟩ := by
  simp [step,State.climb,State.advance,State.await,h,op.ofToken?_token,Nat.not_le.mpr hb]

/-- What waits for the end of a group does what `Run.close` does. -/
theorem step_close (p : Nat) (h : ls.drop cursor = r.rest) :
    ∃ last, ls.drop last = (r.close p).rest ∧
      step ls (r.state cursor (.group p :: waiting)) = some ((r.close p).state last waiting) := by
  cases r with
  | fault f rest env => exact ⟨cursor,h,rfl⟩
  | value x rest env =>
    cases rest with
    | nil =>
      have hend := getElem?_of_drop_nil h
      refine ⟨cursor,h,?_⟩
      simp only [Run.state,Run.close,step,State.resume,State.become,State.advance,hend]
    | cons l rest =>
      obtain ⟨t,q⟩ := l
      obtain ⟨hat,hbehind⟩ := getElem?_of_drop h
      refine ⟨cursor + 1,?_,?_⟩
      · cases t <;> exact hbehind
      · cases t <;>
          simp only [Run.state,Run.close,step,State.resume,State.become,State.advance,hat]

theorem step_call (name : String) (p : Nat) (h : ls.drop cursor = r.rest) :
    ls.drop cursor = (r.call name p).rest ∧
      step ls (r.state cursor (.function name p :: waiting)) =
        some ((r.call name p).state cursor waiting) := by
  cases r with
  | fault f rest env => exact ⟨h,rfl⟩
  | value x rest env =>
    have hrest : ls.drop cursor = rest := h
    cases hy : Builtin.call name x p <;>
      simp [Run.call,Run.state,Run.rest,step,State.resume,State.become,hy,hrest]

theorem step_store (name : String) (h : ls.drop cursor = r.rest) :
    ls.drop cursor = (r.store name).rest ∧
      step ls (r.state cursor (.assignment name :: waiting)) =
        some ((r.store name).state cursor waiting) := by
  cases r <;> exact ⟨h,rfl⟩

end Steps

/-- From any place where a part has its lexemes ahead, and whatever waits, the machine comes to the
end of a run, with what the run leaves ahead. -/
def Part.Evaluates (ls : List Lexeme) (part : Part) (r : Run) : Prop :=
  ∀ cursor waiting, ls.drop cursor = part.lexemes →
    ∃ last, ls.drop last = r.rest ∧ Leads ls (part.state cursor waiting) (r.state last waiting)

/-- The machine follows the rules of the evaluation: a task for each part, and a frame for each
place where a rule goes on with the run of another part. -/
theorem Part.Gives.evaluates {part : Part} {r : Run} (h : part.Gives r) (ls : List Lexeme) :
    part.Evaluates ls r := by
  -- What waits stays arbitrary, since the rules inside a rule are followed under its frame.
  induction h with
  | missing env =>
    intro cursor waiting hl
    exact ⟨cursor,hl,.single (step_missing (getElem?_of_drop_nil hl))⟩
  | num x p ts env =>
    intro cursor waiting hl
    obtain ⟨hat,hbehind⟩ := getElem?_of_drop hl
    exact ⟨cursor + 1,hbehind,.single (step_num hat)⟩
  | group p inner ih =>
    intro cursor waiting hl
    obtain ⟨hat,hbehind⟩ := getElem?_of_drop hl
    obtain ⟨behind,hrest,lead⟩ := ih (cursor + 1) (.group p :: waiting) hbehind
    obtain ⟨last,hlast,hclose⟩ := step_close p hrest
    exact ⟨last,hlast,.head (step_lparen hat) (lead.trans (.single hclose))⟩
  | function p hg argument ih =>
    intro cursor waiting hl
    obtain ⟨hat,hbehind⟩ := getElem?_of_drop hl
    obtain ⟨last,hrest,lead⟩ := ih (cursor + 1) (.function _ p :: waiting) hbehind
    obtain ⟨hlast,hcall⟩ := step_call _ p hrest
    rw [← Run.call_eq_map hg p]
    exact ⟨last,hlast,.head (step_function hat hg) (lead.trans (.single hcall))⟩
  | constant p ts env hc =>
    intro cursor waiting hl
    obtain ⟨hat,hbehind⟩ := getElem?_of_drop hl
    exact ⟨cursor + 1,hbehind,.single (step_constant hat hc)⟩
  | assignment p q hn value ih =>
    intro cursor waiting hl
    obtain ⟨hat,hsign⟩ := getElem?_of_drop hl
    obtain ⟨hequals,hbehind⟩ := getElem?_of_drop hsign
    obtain ⟨last,hrest,lead⟩ := ih (cursor + 2) (.assignment _ :: waiting) hbehind
    obtain ⟨hlast,hstore⟩ := step_store _ hrest
    exact ⟨last,hlast,.head (step_assignment hat hn hequals) (lead.trans (.single hstore))⟩
  | @lookup p name ts env hn hts =>
    intro cursor waiting hl
    obtain ⟨hat,hbehind⟩ := getElem?_of_drop hl
    have hrest : (Run.read name p ts env).rest = ts := by
      unfold Run.read
      split <;> rfl
    rw [← hbehind] at hts
    exact ⟨cursor + 1,hbehind.trans hrest.symm,.single (step_variable hat hn hts ts)⟩
  | unexpected p ts env ht =>
    intro cursor waiting hl
    obtain ⟨hat,hbehind⟩ := getElem?_of_drop hl
    exact ⟨cursor + 1,hbehind,.single (step_unexpected hat ht)⟩
  | chainFault first ih =>
    intro cursor waiting hl
    obtain ⟨last,hlast,lead⟩ := ih cursor (.first _ :: waiting) hl
    exact ⟨last,hlast,.head rfl (lead.trans (.single rfl))⟩
  | chainValue first others ihf iho =>
    intro cursor waiting hl
    obtain ⟨behind,hrest,lead⟩ := ihf cursor (.first _ :: waiting) hl
    obtain ⟨last,hlast,leads⟩ := iho behind waiting hrest
    exact ⟨last,hlast,.head rfl (lead.trans (.head rfl leads))⟩
  | @climbEnd x bound ts env hs =>
    intro cursor waiting hl
    change ls.drop cursor = ts at hl
    rw [← hl] at hs
    exact ⟨cursor,hl,.single (step_stop hs)⟩
  | climbFault x p hb right ih =>
    intro cursor waiting hl
    obtain ⟨hat,hbehind⟩ := getElem?_of_drop hl
    obtain ⟨last,hlast,lead⟩ := ih (cursor + 1) (.right _ _ x :: waiting) hbehind
    exact ⟨last,hlast,.head (step_operator hat hb) (lead.trans (.single rfl))⟩
  | climbValue p hb right others ihr iho =>
    intro cursor waiting hl
    obtain ⟨hat,hbehind⟩ := getElem?_of_drop hl
    obtain ⟨behind,hrest,lead⟩ := ihr (cursor + 1) (.right _ _ _ :: waiting) hbehind
    obtain ⟨last,hlast,leads⟩ := iho behind waiting hrest
    exact ⟨last,hlast,.head (step_operator hat hb) (lead.trans (.head rfl leads))⟩

section Finishes
variable {ls : List Lexeme} {cursor : Nat} {env : Environment} {bound : Nat}

/-- A machine finishes with a run at the cursor `last`. -/
structure Finishes (ls : List Lexeme) (start : State) (r : Run) (last : Nat) : Prop where
  /-- After these steps it has a value or a fault that nothing waits for, -/
  ends : run ls (6 * (ls.length - start.cursor) + 4) start = r.state last []
  /-- and it takes no more. -/
  halted : step ls (r.state last []) = none
  rest : r.rest = ls.drop last
  forward : ∀ m n, m ≤ n → (run ls m start).cursor ≤ (run ls n start).cursor
  inside : ∀ n, (run ls n start).cursor ≤ ls.length
  advanced : ∀ x, r.outcome = .ok x → start.cursor < last

theorem Run.Within.advanced {r : Run} {last : Nat} (hr : r.Within (ls.drop cursor).length)
    (hrest : r.rest = ls.drop last) {x : Float} (hx : r.outcome = .ok x) : cursor < last := by
  cases r with
  | fault f rest env => cases hx
  | value y rest env =>
    change rest = ls.drop last at hrest
    change rest.length < _ at hr
    rw [hrest,List.length_drop,List.length_drop] at hr
    omega

theorem cost_state_le (part : Part) :
    (part.state cursor []).cost ls ≤ 6 * (ls.length - cursor) + 4 := by
  cases part <;> simp [Part.state,State.cost,State.load,Frame.costs,Task.cost]

theorem Part.exists_finishes_state (part : Part) (hl : ls.drop cursor = part.lexemes)
    (h : cursor ≤ ls.length) (hr : part.run.Within part.lexemes.length) :
    ∃ last, Finishes ls (part.state cursor []) part.run last := by
  obtain ⟨last,hlast,n,hn⟩ := part.gives_run.evaluates ls cursor [] hl
  have hcursor : (part.state cursor []).cursor = cursor := by cases part <;> rfl
  have halted : step ls (part.run.state last []) = none := by cases part.run <;> rfl
  refine ⟨last,?_,halted,hlast.symm,?_,?_,?_⟩
  · rw [← hn] at halted ⊢
    rw [hcursor]
    exact run_eq_of_halted (halted_run (cost_state_le part)) halted
  · intro m n hmn
    exact cursor_run_le hmn _
  · exact cursor_run_le_length (Nat.le_trans (Nat.le_of_eq hcursor) h)
  · intro x hx
    rw [hcursor]
    rw [← hl] at hr
    exact hr.advanced hlast.symm hx

/-- Behind a chain with a value the cursor stands at no operator above the bound. -/
theorem priority_le_of_chain {ts : List Lexeme} {last : Nat} {x : Float} {l : Lexeme}
    {op : Operator} (hrest : (chain bound ts env).rest = ls.drop last)
    (hx : (chain bound ts env).outcome = .ok x)
    (hl : ls[last]? = some l) (ho : Operator.ofToken? l.token = some op) : op.priority ≤ bound := by
  cases hr : chain bound ts env with
  | fault f rest env' =>
    rw [hr] at hx
    cases hx
  | value y rest env' =>
    have stops : Stops bound rest := stops_of_chain hr
    rw [hr] at hrest
    change rest = ls.drop last at hrest
    refine stops op ?_
    rw [hrest,operator?_drop,hl]
    exact ho

/-- An operand and a chain are read to their end from any place among the lexemes, in a number of
steps that is linear in the lexemes ahead. On the way the cursor never goes back and never passes
the end of the lexemes, and with a value it has gone on. A chain with a value ends before whatever
is no operator above its bound. -/
theorem exists_finishes (ls : List Lexeme) (cursor : Nat) (env : Environment) (bound : Nat)
    (h : cursor ≤ ls.length) :
    (∃ last, Finishes ls ⟨.operand,cursor,env,[]⟩ (operand (ls.drop cursor) env) last) ∧
    ∃ last, Finishes ls ⟨.chain bound,cursor,env,[]⟩ (chain bound (ls.drop cursor) env) last ∧
      ∀ x, (chain bound (ls.drop cursor) env).outcome = .ok x →
        ∀ l op, ls[last]? = some l → Operator.ofToken? l.token = some op → op.priority ≤ bound := by
  have operandFinishes := (Part.operand (ls.drop cursor) env).exists_finishes_state rfl h
    (operand_within _ env)
  obtain ⟨last,finishes⟩ := (Part.chain bound (ls.drop cursor) env).exists_finishes_state rfl h
    (chain_within bound _ env)
  refine ⟨operandFinishes,last,finishes,?_⟩
  intro x hx l op hl ho
  exact priority_le_of_chain finishes.rest hx hl ho

/-- In `- (a = 2) * 2 + 5` the chain above the bound 1 that begins behind the minus has the value
2 * 2, and it ends at the plus. -/
theorem exists_finishes_group :
    1 ≤ 10 ∧ Finishes [⟨.minus,0⟩,⟨.lparen,2⟩,⟨.ident "a",3⟩,⟨.equals,5⟩,⟨.num 2,7⟩,⟨.rparen,8⟩,
        ⟨.star,10⟩,⟨.num 2,12⟩,⟨.plus,14⟩,⟨.num 5,16⟩]
      ⟨.chain 1,1,.empty,[]⟩
      (.value (2 * 2) [⟨.plus,14⟩,⟨.num 5,16⟩] (Environment.empty.set "a" 2)) 8 := by
  refine ⟨by decide,?_⟩
  obtain ⟨_,last,finishes,_⟩ := exists_finishes [⟨.minus,0⟩,⟨.lparen,2⟩,⟨.ident "a",3⟩,⟨.equals,5⟩,
    ⟨.num 2,7⟩,⟨.rparen,8⟩,⟨.star,10⟩,⟨.num 2,12⟩,⟨.plus,14⟩,⟨.num 5,16⟩] 1 .empty 1 (by decide)
  have value : chain 1 [⟨.lparen,2⟩,⟨.ident "a",3⟩,⟨.equals,5⟩,⟨.num 2,7⟩,⟨.rparen,8⟩,⟨.star,10⟩,
      ⟨.num 2,12⟩,⟨.plus,14⟩,⟨.num 5,16⟩] .empty =
      .value (2 * 2) [⟨.plus,14⟩,⟨.num 5,16⟩] (Environment.empty.set "a" 2) := by
    with_unfolding_all rfl
  simp only [List.drop_succ_cons,List.drop_zero,value] at finishes
  have hlen := congrArg List.length finishes.rest
  simp [Run.rest] at hlen
  obtain rfl : last = 8 := by omega
  exact finishes

end Finishes

end Reckoner
