import Reckoner.Evaluation.Run
import Reckoner.Operator

namespace Reckoner

namespace Machine

/-- What a machine does next. With a value or a fault it goes back to what waits. -/
inductive Task where
  | operand
  | chain (bound : Nat)
  | climb (bound : Nat) (x : Float)
  | value (x : Float)
  | fault (f : Fault)

/-- What waits for a value: a group, a function, an assignment, a chain for its first operand and
an operator for the one on its right. -/
inductive Frame where
  | group (position : Nat)
  | function (name : String) (position : Nat)
  | assignment (name : String)
  | first (bound : Nat)
  | right (bound : Nat) (op : Operator) (x : Float)

/-- A cursor into the lexemes, and the stack of what waits for a value. A step never takes the
cursor back or past the end, and it makes what is left to do cheaper. -/
structure State where
  task : Task
  cursor : Nat
  env : Environment
  waiting : List Frame

namespace State

def become (s : State) (task : Task) : State := { s with task := task }

def await (s : State) (frame : Frame) (task : Task) : State :=
  { s with task := task,waiting := frame :: s.waiting }

/-- Goes past the lexeme at the cursor, if there is one. -/
def advance (ls : List Lexeme) (s : State) : State :=
  match ls[s.cursor]? with
  | some _ => { s with cursor := s.cursor + 1 }
  | none => s

/-- What a name stands for that has been consumed. -/
def identify (ls : List Lexeme) (s : State) (name : String) (p : Nat) : State :=
  if Builtin.isFunction name then s.await (.function name p) .operand
  else
    match Builtin.constant? name with
    | some c => s.become (.value c.value)
    | none =>
      match ls[s.cursor]? with
      | some ⟨.equals,_⟩ => (s.advance ls).await (.assignment name) (.chain 0)
      | _ =>
        match s.env.get? name with
        | some x => s.become (.value x)
        | none => s.become (.fault (.unknownVariable name p))

def operand (ls : List Lexeme) (s : State) : State :=
  match ls[s.cursor]? with
  | none => s.become (.fault .unexpectedEndOfInput)
  | some ⟨.num x,_⟩ => (s.advance ls).become (.value x)
  | some ⟨.lparen,p⟩ => (s.advance ls).await (.group p) (.chain 0)
  | some ⟨.ident name,p⟩ => (s.advance ls).identify ls name p
  | some ⟨t,p⟩ => (s.advance ls).become (.fault (.unexpectedToken t p))

/-- Goes on from the value `x` with the operator at the cursor, or ends there. -/
def climb (ls : List Lexeme) (s : State) (bound : Nat) (x : Float) : State :=
  match ls[s.cursor]?.bind (fun l => Operator.ofToken? l.token) with
  | none => s.become (.value x)
  | some op =>
    if op.priority ≤ bound then s.become (.value x)
    else (s.advance ls).await (.right bound op x) (.chain op.rightBound)

/-- Gives a value to what has waited for it. -/
def resume (ls : List Lexeme) (s : State) (x : Float) : Frame → State
  | .group p =>
    match ls[s.cursor]? with
    | some ⟨.rparen,_⟩ => (s.advance ls).become (.value x)
    | _ => (s.advance ls).become (.fault (.unbalancedParentheses p))
  | .function name p =>
    match Builtin.call name x p with
    | .ok y => s.become (.value y)
    | .error f => s.become (.fault f)
  | .assignment name => { s with task := .value x,env := s.env.set name x }
  | .first bound => s.become (.climb bound x)
  | .right bound op y => s.become (.climb bound (op.apply y x))

end State

/-- One step. With a value or a fault that nothing waits for the machine has halted. -/
def step (ls : List Lexeme) (s : State) : Option State :=
  match s.task,s.waiting with
  | .operand,_ => some (s.operand ls)
  | .chain bound,_ => some (s.await (.first bound) .operand)
  | .climb bound x,_ => some (s.climb ls bound x)
  | .value x,frame :: waiting => some (State.resume ls { s with waiting := waiting } x frame)
  | .fault _,_ :: waiting => some { s with waiting := waiting }
  | .value _,[] => none
  | .fault _,[] => none

/-- The state after `n` steps, or where it has halted before. -/
def run (ls : List Lexeme) : Nat → State → State
  | 0,s => s
  | n + 1,s =>
    match step ls s with
    | none => s
    | some t => run ls n t

def Task.cost : Task → Nat
  | .operand | .climb _ _ => 1
  | .chain _ => 4 -- its own step, that of its operand, and what waits for that
  | .value _ | .fault _ => 0

def Frame.cost : Frame → Nat
  | .group _ | .function _ _ | .assignment _ => 1
  | .first _ | .right _ _ _ => 2

def Frame.costs : List Frame → Nat
  | [] => 0
  | frame :: frames => frame.cost + costs frames

/-- What the lexemes ahead and the frames can still cost. A lexeme pays for the most it can bring,
an operator with its frame and the chain on its right. -/
def State.load (ls : List Lexeme) (s : State) : Nat :=
  6 * (ls.length - s.cursor) + Frame.costs s.waiting

/-- No more steps than this are left. -/
def State.cost (ls : List Lexeme) (s : State) : Nat := s.load ls + s.task.cost

section Moves
variable {ls : List Lexeme} {s t : State} {k : Nat}

/-- The cursor has not gone back and not passed the end, and what is left to do costs less than the
load before and `k`. -/
structure Moves (ls : List Lexeme) (s : State) (k : Nat) (t : State) : Prop where
  forward : s.cursor ≤ t.cursor
  inside : s.cursor ≤ ls.length → t.cursor ≤ ls.length
  cheaper : t.cost ls < s.load ls + k

theorem State.advance_of_some {l : Lexeme} (h : ls[s.cursor]? = some l) :
    s.advance ls = { s with cursor := s.cursor + 1 } := by
  simp only [State.advance,h]

theorem Moves.become {task : Task} (h : task.cost < k) : Moves ls s k (s.become task) :=
  ⟨Nat.le_refl _,id,Nat.add_lt_add_left h _⟩

theorem Moves.await {frame : Frame} {task : Task} (h : frame.cost + task.cost < k) :
    Moves ls s k (s.await frame task) := by
  refine ⟨Nat.le_refl _,id,?_⟩
  simp only [State.cost,State.load,State.await,Frame.costs]
  omega

/-- The lexeme that the cursor goes past pays. -/
theorem Moves.over {l : Lexeme} (hl : ls[s.cursor]? = some l)
    (h : Moves ls (s.advance ls) (k + 6) t) : Moves ls s k t := by
  have hs : s.cursor < ls.length := (List.getElem?_eq_some_iff.mp hl).1
  rw [State.advance_of_some hl] at h
  obtain ⟨forward,inside,cheaper⟩ := h
  refine ⟨Nat.le_of_succ_le forward,fun _ => inside hs,?_⟩
  simp only [State.load] at cheaper ⊢
  omega

/-- Where no lexeme is left, the cursor stays and nothing pays. -/
theorem Moves.past (h : Moves ls (s.advance ls) k t) : Moves ls s k t := by
  cases hl : ls[s.cursor]? with
  | some l => exact .over hl ⟨h.forward,h.inside,Nat.lt_add_right 6 h.cheaper⟩
  | none =>
    simp only [State.advance,hl] at h
    exact h

theorem moves_identify (name : String) (p : Nat) (hk : 2 < k) :
    Moves ls s k (s.identify ls name p) := by
  have hpos : 0 < k := Nat.lt_trans (Nat.zero_lt_succ 1) hk
  unfold State.identify
  split
  · exact .await hk
  · split
    · exact .become hpos
    · split
      · rename_i he
        refine .over he (.await ?_)
        simp only [Frame.cost,Task.cost]
        omega
      · split <;> exact .become hpos

theorem moves_operand : Moves ls s 1 (s.operand ls) := by
  unfold State.operand
  split
  · exact .become Nat.one_pos
  · rename_i h
    exact .over h (.become (by simp [Task.cost]))
  · rename_i h
    exact .over h (.await (by simp [Frame.cost,Task.cost]))
  · rename_i h
    exact .over h (moves_identify _ _ (by decide))
  · rename_i h
    exact .over h (.become (by simp [Task.cost]))

theorem moves_climb (bound : Nat) (x : Float) : Moves ls s 1 (s.climb ls bound x) := by
  unfold State.climb
  split
  · exact .become Nat.one_pos
  · rename_i op h
    obtain ⟨l,hl,_⟩ := Option.bind_eq_some_iff.mp h
    split
    · exact .become Nat.one_pos
    · exact .over hl (.await (by simp [Frame.cost,Task.cost]))

theorem moves_resume (x : Float) (frame : Frame) :
    Moves ls s frame.cost (s.resume ls x frame) := by
  cases frame with
  | group p =>
    simp only [State.resume]
    split <;> exact .past (.become Nat.one_pos)
  | function name p =>
    simp only [State.resume]
    split <;> exact .become Nat.one_pos
  | assignment name => exact ⟨Nat.le_refl _,id,Nat.lt_succ_self _⟩
  | first bound => exact .become (Nat.lt_succ_self 1)
  | right bound op y => exact .become (Nat.lt_succ_self 1)

/-- A step keeps the cursor from going back or passing the end, and it makes the rest cheaper. -/
theorem moves_step (h : step ls s = some t) : Moves ls s s.task.cost t := by
  obtain ⟨task,cursor,env,waiting⟩ := s
  cases task with
  | operand =>
    cases h
    exact moves_operand
  | chain bound =>
    cases h
    exact .await (Nat.lt_succ_self 3)
  | climb bound x =>
    cases h
    exact moves_climb bound x
  | value x =>
    cases waiting with
    | nil => cases h
    | cons frame waiting =>
      cases h
      have resumed : Moves ls ⟨.value x,cursor,env,waiting⟩ frame.cost _ := moves_resume x frame
      obtain ⟨forward,inside,cheaper⟩ := resumed
      refine ⟨forward,inside,?_⟩
      simp only [State.load,Frame.costs,Task.cost] at cheaper ⊢
      omega
  | fault f =>
    cases waiting with
    | nil => cases h
    | cons frame waiting =>
      cases h
      refine ⟨Nat.le_refl _,id,?_⟩
      have : 0 < frame.cost := by cases frame <;> simp [Frame.cost]
      simp only [State.cost,State.load,Frame.costs,Task.cost]
      omega

end Moves

section Runs
variable {ls : List Lexeme} {s t u : State} {m n : Nat}

theorem run_of_step (h : step ls s = some t) (n : Nat) : run ls (n + 1) s = run ls n t := by
  simp [run,h]

theorem run_of_halted (h : step ls s = none) (n : Nat) : run ls n s = s := by
  cases n <;> simp [run,h]

theorem run_add (m n : Nat) (s : State) : run ls (m + n) s = run ls n (run ls m s) := by
  induction m generalizing s with
  | zero => simp [run]
  | succ m ih =>
    cases h : step ls s with
    | none => simp [run_of_halted h]
    | some t => simp [Nat.succ_add,run_of_step h,ih]

/-- Each step makes the rest cheaper, so after as many steps as a state costs the machine has
halted. -/
theorem halted_run (h : s.cost ls ≤ n) : step ls (run ls n s) = none := by
  induction n generalizing s with
  | zero =>
    cases hs : step ls s with
    | none => exact hs
    | some t =>
      have cheaper : t.cost ls < s.cost ls := (moves_step hs).cheaper
      omega
  | succ n ih =>
    cases hs : step ls s with
    | none => rw [run_of_halted hs,hs]
    | some t =>
      have cheaper : t.cost ls < s.cost ls := (moves_step hs).cheaper
      rw [run_of_step hs]
      exact ih (by omega)

/-- A machine halts in one state only. -/
theorem run_eq_of_halted (hm : step ls (run ls m s) = none) (hn : step ls (run ls n s) = none) :
    run ls m s = run ls n s := by
  rcases Nat.le_total m n with h | h
  · obtain ⟨k,rfl⟩ := Nat.exists_eq_add_of_le h
    rw [run_add,run_of_halted hm]
  · obtain ⟨k,rfl⟩ := Nat.exists_eq_add_of_le h
    rw [run_add,run_of_halted hn]

theorem cursor_le_run (n : Nat) (s : State) : s.cursor ≤ (run ls n s).cursor := by
  induction n generalizing s with
  | zero => exact Nat.le_refl _
  | succ n ih =>
    cases h : step ls s with
    | none => simp [run_of_halted h]
    | some t =>
      rw [run_of_step h]
      exact Nat.le_trans (moves_step h).forward (ih t)

theorem cursor_run_le (h : m ≤ n) (s : State) : (run ls m s).cursor ≤ (run ls n s).cursor := by
  obtain ⟨k,rfl⟩ := Nat.exists_eq_add_of_le h
  rw [run_add]
  exact cursor_le_run k _

theorem cursor_run_le_length (h : s.cursor ≤ ls.length) (n : Nat) :
    (run ls n s).cursor ≤ ls.length := by
  induction n generalizing s with
  | zero => exact h
  | succ n ih =>
    cases hs : step ls s with
    | none => rwa [run_of_halted hs]
    | some t =>
      rw [run_of_step hs]
      exact ih ((moves_step hs).inside h)

def Leads (ls : List Lexeme) (s t : State) : Prop := ∃ n, run ls n s = t

theorem Leads.head (h : step ls s = some t) (ht : Leads ls t u) : Leads ls s u := by
  obtain ⟨n,hn⟩ := ht
  exact ⟨n + 1,(run_of_step h n).trans hn⟩

theorem Leads.single (h : step ls s = some t) : Leads ls s t := .head h ⟨0,rfl⟩

theorem Leads.trans (hs : Leads ls s t) (ht : Leads ls t u) : Leads ls s u := by
  obtain ⟨m,rfl⟩ := hs
  obtain ⟨n,rfl⟩ := ht
  exact ⟨m + n,run_add m n s⟩

end Runs

end Machine

end Reckoner
