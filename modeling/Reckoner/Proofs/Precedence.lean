import Reckoner.Proofs.Phrase

namespace Reckoner

theorem Operator.rightBound_le (op : Operator) : op.rightBound ≤ op.priority := by
  cases op <;> simp [rightBound,rightAssociative,priority]

theorem Operator.priority_le_rightBound_succ (op : Operator) : op.priority ≤ op.rightBound + 1 := by
  cases op <;> simp [rightBound,rightAssociative,priority]

/-- A run agrees with a meaning: it goes on from the same value, or it has the same fault. What is
left after a fault is no part of the meaning. -/
def Follows (m : Meaning) (next : Float → Environment → Run) (r : Run) : Prop :=
  match m with
  | (.ok x,env) => r = next x env
  | (.error f,env) => ∃ left, r = .fault f left env

section Follows
variable {m : Meaning} {next next' : Float → Environment → Run} {r : Run} {g : Run → Run}

/-- What is done to the run is done to the meaning, where a fault passes through it. -/
theorem Follows.bind {k : Float → Environment → Meaning} (h : Follows m next r)
    (hg : ∀ f left env, g (.fault f left env) = .fault f left env)
    (hv : ∀ x env, Follows (k x env) next' (g (next x env))) :
    Follows (m.andThen k) next' (g r) := by
  obtain ⟨out,env⟩ := m
  cases out with
  | ok x =>
    have hr : r = next x env := h
    rw [hr]
    exact hv x env
  | error f =>
    obtain ⟨left,hr⟩ := h
    rw [hr,hg]
    exact ⟨left,rfl⟩

theorem Follows.through (h : Follows m next r)
    (hg : ∀ f left env, g (.fault f left env) = .fault f left env)
    (hv : ∀ x env, g (next x env) = next' x env) : Follows m next' (g r) := by
  have hm : m.andThen (fun x env => (.ok x,env)) = m := by
    obtain ⟨out,env⟩ := m
    cases out <;> rfl
  rw [← hm]
  exact h.bind hg hv

theorem Follows.outcome {rest : List Lexeme} (h : Follows m (fun x env => .value x rest env) r) :
    r.outcome = m.1 ∧ r.env = m.2 := by
  obtain ⟨out,env⟩ := m
  cases out with
  | ok x =>
    have hr : r = .value x rest env := h
    rw [hr]
    exact ⟨rfl,rfl⟩
  | error f =>
    obtain ⟨left,hr⟩ := h
    rw [hr]
    exact ⟨rfl,rfl⟩

end Follows

namespace Phrase
variable {bound : Nat} {rest : List Lexeme}

/-- What follows an assignment follows the value assigned. No operator can. -/
theorem Admits.assigned {name : FreeName} {p q : Nat} {w : Phrase}
    (h : (assign name p q w).Admits rest) : w.Ends rest := by
  refine ⟨?_,h.sign⟩
  cases ho : operator? rest with
  | none => rfl
  | some op => exact absurd (standsLeft_iff.mp (h.operator op ho)).1 (by simp [endsInAssignment])

theorem Admits.argument {g : Builtin.Function} {name : String}
    {spelled : Builtin.function? name = some g} {p : Nat} {w : Phrase} (hw : w.root? = none)
    (h : (call g name spelled p w).Admits rest) : w.Admits rest := by
  refine ⟨?_,h.sign⟩
  intro op ho
  exact standsLeft_of_operand hw (standsLeft_iff.mp (h.operator op ho)).1

theorem Admits.left {op : Operator} {l : Phrase} (p : Nat) (rest : List Lexeme)
    (hl : l.standsLeft op = true) : l.Admits (⟨op.token,p⟩ :: rest) := by
  refine ⟨?_,?_⟩
  · intro o ho
    rw [operator?_cons,op.ofToken?_token] at ho
    cases ho
    exact hl
  · intro _ he
    cases op <;> cases he

theorem Admits.right {op : Operator} {p : Nat} {l r : Phrase} (hr : r.standsRight op = true)
    (h : (bin op p l r).Admits rest) : r.Admits rest := by
  refine ⟨?_,h.sign⟩
  intro o ho
  obtain ⟨he,hb⟩ := standsLeft_iff.mp (h.operator o ho)
  have hop : o.priority ≤ op.rightBound := hb op rfl
  refine standsLeft_iff.mpr ⟨he,?_⟩
  intro root hroot
  have := standsRight_iff.mp hr root hroot
  have := root.priority_le_rightBound_succ
  omega

theorem Admits.stops {op : Operator} {p : Nat} {l r : Phrase} (h : (bin op p l r).Admits rest) :
    Stops op.rightBound rest :=
  fun o ho => (standsLeft_iff.mp (h.operator o ho)).2 op rfl

/-- To the left of an operator above a bound, all operators outside parentheses are above it too. -/
theorem above_of_standsLeft {op : Operator} {l : Phrase} (hl : l.standsLeft op = true)
    (hop : bound < op.priority) : ∀ o ∈ l.root?, bound < o.priority := by
  intro o ho
  have := (standsLeft_iff.mp hl).2 o ho
  have := o.rightBound_le
  omega

theorem admits_rparen (w : Phrase) (q : Nat) (rest : List Lexeme) :
    w.Admits (⟨.rparen,q⟩ :: rest) :=
  Ends.admits ⟨rfl,fun _ => by simp⟩

theorem follows_chain {m : Meaning} {ts : List Lexeme} {env : Environment}
    (h : Follows m (fun x env => .value x rest env) (operand ts env)) :
    Follows m (fun x env => climb bound x rest env) (chain bound ts env) := by
  rw [chain_eq]
  exact h.through (g := fun r => r.andThen (climb bound)) (fun _ _ _ => rfl) (fun _ _ => rfl)

/-- A phrase is evaluated to the meaning of its tree, and then what follows it is taken. The bound
is arbitrary as long as the phrase has no looser operator of its own, and so is what follows. That
is what the right operands and the insides of groups need. -/
theorem follows_lexemes (w : Phrase) (hw : w.wellBracketed = true)
    (hb : ∀ o ∈ w.root?, bound < o.priority) (hr : w.Admits rest) (env : Environment) :
    Follows (w.tree.meaning env) (fun x env => climb bound x rest env)
      (chain bound (w.lexemes ++ rest) env) := by
  induction w generalizing bound rest env with
  | num x p =>
    apply follows_chain
    exact operand_num x p rest env
  | const c name spelled p =>
    apply follows_chain
    exact operand_constant p rest env spelled
  | var name p =>
    apply follows_chain
    rw [lexemes,List.singleton_append,operand_read name.2 (hr.sign rfl)]
    simp only [tree,Tree.meaning,Run.read]
    cases env.get? name.1 with
    | some x => exact rfl
    | none => exact ⟨rest,rfl⟩
  | assign name p q w ih =>
    have hends := hr.assigned
    have value := ih hw (fun o _ => o.priority_pos) hends.admits env
    apply follows_chain
    rw [lexemes,List.cons_append,List.cons_append,operand_assignment p _ env q name.2]
    refine value.bind (fun _ _ _ => rfl) ?_
    intro x env'
    rw [climb_of_stops (stops_zero_iff.mpr hends.operator)]
    exact rfl
  | call g name spelled p w ih =>
    simp only [wellBracketed,Bool.and_eq_true,Option.isNone_iff_eq_none] at hw
    obtain ⟨hroot,hw⟩ := hw
    have argument : Follows _ _ (chain 3 (w.lexemes ++ rest) env) :=
      ih hw (forall_root? hroot) (hr.argument hroot) env
    apply follows_chain
    rw [lexemes,List.cons_append,operand_function p _ env spelled,← chain_three]
    refine argument.bind (fun _ _ _ => rfl) ?_
    intro x env'
    rw [climb_of_stops (stops_three rest)]
    exact rfl
  | bin op p l r ihl ihr =>
    simp only [wellBracketed,Bool.and_eq_true] at hw
    obtain ⟨⟨⟨hl,hr'⟩,hlw⟩,hrw⟩ := hw
    have hop : bound < op.priority := hb op rfl
    have left := ihl hlw (above_of_standsLeft hl hop) (Admits.left p (r.lexemes ++ rest) hl) env
    rw [lexemes,List.append_assoc,List.cons_append]
    refine left.bind (g := id) (fun _ _ _ => rfl) ?_
    intro x env'
    have right := ihr hrw (standsRight_iff.mp hr') (hr.right hr') env'
    simp only [id,climb_operator bound x p _ env' hop]
    refine right.bind (g := fun r => r.andThen (fun y => climb bound (op.apply x y)))
      (fun _ _ _ => rfl) ?_
    intro y env''
    rw [climb_of_stops hr.stops]
    exact rfl
  | group p q w ih =>
    have inner := ih hw (fun o _ => o.priority_pos) (w.admits_rparen q rest) env
    apply follows_chain
    rw [lexemes,List.cons_append,List.append_assoc,operand_lparen]
    refine inner.through (fun _ _ _ => rfl) ?_
    intro x env'
    rw [climb_of_stops (stops_zero_iff.mpr rfl)]
    rfl

theorem follows_of_ends (w : Phrase) (hw : w.wellBracketed = true) (hr : w.Ends rest)
    (env : Environment) :
    Follows (w.tree.meaning env) (fun x env => .value x rest env)
      (chain 0 (w.lexemes ++ rest) env) := by
  have h := w.follows_lexemes hw (fun o _ => o.priority_pos) hr.admits env
  refine h.through (g := id) (fun _ _ _ => rfl) ?_
  intro x env'
  exact climb_of_stops (stops_zero_iff.mpr hr.operator)

theorem evaluateLexemes_lexemes (w : Phrase) (hw : w.wellBracketed = true) (hr : w.Ends rest)
    (env : Environment) :
    evaluateLexemes (w.lexemes ++ rest) env =
      ((w.tree.meaning env).1.map some,(w.tree.meaning env).2) := by
  obtain ⟨hout,henv⟩ := (w.follows_of_ends hw hr env).outcome
  rw [evaluateLexemes_eq (List.append_ne_nil_of_left_ne_nil w.lexemes_ne_nil rest),hout,henv]

end Phrase

/-- However a tree is written, with parentheses at least where the table of priorities asks for
them, its evaluation gives the meaning of the tree: value or fault, and environment. All that was
written is consumed for a value, and nothing behind it. -/
theorem evaluateLexemes_of_written (t : Tree) (w : Phrase) (ht : w.tree = t)
    (hw : w.wellBracketed = true) (env : Environment) :
    evaluateLexemes w.lexemes env = ((t.meaning env).1.map some,(t.meaning env).2) ∧
    ∀ rest, w.Ends rest →
      evaluateLexemes (w.lexemes ++ rest) env = ((t.meaning env).1.map some,(t.meaning env).2) ∧
      ∀ x env', t.meaning env = (.ok x,env') →
        chain 0 (w.lexemes ++ rest) env = .value x rest env' := by
  subst ht
  have whole := w.evaluateLexemes_lexemes hw w.ends_nil env
  rw [List.append_nil] at whole
  refine ⟨whole,?_⟩
  intro rest hr
  refine ⟨w.evaluateLexemes_lexemes hw hr env,?_⟩
  intro x env' hm
  have h := w.follows_of_ends hw hr env
  rw [hm] at h
  exact h

/-- `(a = 6) - 2 - a * b = 3`, where one assignment needs its parentheses and the other does not. -/
def Phrase.nested : Phrase :=
  .bin .sub 12
    (.bin .sub 8 (.group 0 6 (.assign ⟨"a",by decide⟩ 1 3 (.num 6 5))) (.num 2 10))
    (.bin .mul 16 (.var ⟨"a",by decide⟩ 14) (.assign ⟨"b",by decide⟩ 18 20 (.num 3 22)))

theorem evaluateLexemes_of_written_nested :
    Phrase.nested.wellBracketed = true ∧
      evaluateLexemes Phrase.nested.lexemes .empty =
        (.ok (some (6 - 2 - 6 * 3)),(Environment.empty.set "a" 6).set "b" 3) := by
  have hw : Phrase.nested.wellBracketed = true := by decide
  refine ⟨hw,?_⟩
  rw [(evaluateLexemes_of_written Phrase.nested.tree Phrase.nested rfl hw .empty).1]
  simp only [Phrase.nested,Phrase.tree,Tree.meaning,Meaning.andThen,Environment.get?_set_self]
  rfl

end Reckoner
