import Reckoner.Proofs.Derivation

namespace Reckoner

abbrev FreeName := { name : String // Builtin.isReserved name = false }

/-- An expression without its parentheses. A variable that is read keeps its place, which is told
when it has no value. -/
inductive Tree where
  | num (x : Float)
  | const (c : Builtin.Constant)
  | var (name : FreeName) (p : Nat)
  | assign (name : FreeName) (t : Tree)
  | call (g : Builtin.Function) (t : Tree)
  | bin (op : Operator) (l r : Tree)

/-- What comes of an expression: its value or its fault, and the environment after it. -/
abbrev Meaning := Except Fault Float × Environment

def Meaning.andThen (m : Meaning) (next : Float → Environment → Meaning) : Meaning :=
  match m with
  | (.ok x,env) => next x env
  | (.error f,env) => (.error f,env)

theorem Meaning.andThen_eq_ok {m : Meaning} {next : Float → Environment → Meaning} {x : Float}
    {env : Environment} (h : m.andThen next = (.ok x,env)) :
    ∃ y env₁, m = (.ok y,env₁) ∧ next y env₁ = (.ok x,env) := by
  obtain ⟨out,env₁⟩ := m
  cases out with
  | ok y => exact ⟨y,env₁,rfl,h⟩
  | error f => cases h

/-- The value of a tree, computed from left to right. The first fault ends the computation, and what
was assigned before it stays. -/
def Tree.meaning : Tree → Environment → Meaning
  | num x, env => (.ok x,env)
  | const c, env => (.ok c.value,env)
  | var name p, env =>
    match env.get? name.1 with
    | some x => (.ok x,env)
    | none => (.error (.unknownVariable name.1 p),env)
  | assign name t, env => (t.meaning env).andThen (fun x env => (.ok x,env.set name.1 x))
  | call g t, env => (t.meaning env).andThen (fun x env => (.ok (g.apply x),env))
  | bin op l r, env =>
    (l.meaning env).andThen (fun x env =>
      (r.meaning env).andThen (fun y env => (.ok (op.apply x y),env)))

/-- A tree as it is written, with the spelling of its names, its parentheses and the places of its
lexemes. -/
inductive Phrase where
  | num (x : Float) (p : Nat)
  | const (c : Builtin.Constant) (name : String) (spelled : Builtin.constant? name = some c)
      (p : Nat)
  | var (name : FreeName) (p : Nat)
  | assign (name : FreeName) (p q : Nat) (w : Phrase)
  | call (g : Builtin.Function) (name : String) (spelled : Builtin.function? name = some g)
      (p : Nat) (w : Phrase)
  | bin (op : Operator) (p : Nat) (l r : Phrase)
  | group (p q : Nat) (w : Phrase)

namespace Phrase

def tree : Phrase → Tree
  | num x _ => .num x
  | const c _ _ _ => .const c
  | var name p => .var name p
  | assign name _ _ w => .assign name w.tree
  | call g _ _ _ w => .call g w.tree
  | bin op _ l r => .bin op l.tree r.tree
  | group _ _ w => w.tree

def lexemes : Phrase → List Lexeme
  | num x p => [⟨.num x,p⟩]
  | const _ name _ p => [⟨.ident name,p⟩]
  | var name p => [⟨.ident name.1,p⟩]
  | assign name p q w => ⟨.ident name.1,p⟩ :: ⟨.equals,q⟩ :: w.lexemes
  | call _ name _ p w => ⟨.ident name,p⟩ :: w.lexemes
  | bin op p l r => l.lexemes ++ ⟨op.token,p⟩ :: r.lexemes
  | group p q w => ⟨.lparen,p⟩ :: (w.lexemes ++ [⟨.rparen,q⟩])

/-- The operator that is applied last, unless it stands in parentheses. -/
def root? : Phrase → Option Operator
  | bin op _ _ _ => some op
  | _ => none

def endsInAssignment : Phrase → Bool
  | assign _ _ _ _ => true
  | call _ _ _ _ w => w.endsInAssignment
  | bin _ _ _ r => r.endsInAssignment
  | _ => false

def endsInVariable : Phrase → Bool
  | var _ _ => true
  | assign _ _ _ w => w.endsInVariable
  | call _ _ _ _ w => w.endsInVariable
  | bin _ _ _ r => r.endsInVariable
  | _ => false

/-- Whether a phrase can stand to the left of an operator without parentheses. At the end of an
assignment it cannot: the operator would belong to the value assigned. -/
def standsLeft (op : Operator) (w : Phrase) : Bool :=
  !w.endsInAssignment && w.root?.all (fun o =>
    op.priority < o.priority || (op.priority == o.priority && !op.rightAssociative))

def standsRight (op : Operator) (w : Phrase) : Bool :=
  w.root?.all (fun o =>
    op.priority < o.priority || (op.priority == o.priority && op.rightAssociative))

/-- Whether parentheses stand wherever they are needed. More of them do no harm. -/
def wellBracketed : Phrase → Bool
  | num _ _ => true
  | const _ _ _ _ => true
  | var _ _ => true
  | assign _ _ _ w => w.wellBracketed
  | call _ _ _ _ w => w.root?.isNone && w.wellBracketed
  | bin op _ l r => l.standsLeft op && r.standsRight op && l.wellBracketed && r.wellBracketed
  | group _ _ w => w.wellBracketed

/-- What follows a phrase does not belong to it: it is no operator that would take from the phrase,
and no sign that would make an assignment of the variable at its end. -/
structure Admits (w : Phrase) (rest : List Lexeme) : Prop where
  operator : ∀ op ∈ operator? rest, w.standsLeft op = true
  sign : w.endsInVariable = true → next? rest ≠ some .equals

/-- What follows does not continue the phrase at all. -/
structure Ends (w : Phrase) (rest : List Lexeme) : Prop where
  operator : operator? rest = none
  sign : w.endsInVariable = true → next? rest ≠ some .equals

theorem Ends.admits {w : Phrase} {rest : List Lexeme} (h : w.Ends rest) : w.Admits rest := by
  refine ⟨?_,h.sign⟩
  intro op ho
  rw [h.operator] at ho
  cases ho

theorem ends_nil (w : Phrase) : w.Ends [] := ⟨rfl,fun _ => by simp⟩

theorem lexemes_ne_nil (w : Phrase) : w.lexemes ≠ [] := by
  cases w <;> simp [lexemes]

/-- An operator to the right takes from a phrase exactly what its last operator would take. -/
theorem groupsLeft_iff (op o : Operator) :
    (op.priority < o.priority || (op.priority == o.priority && !op.rightAssociative)) = true ↔
      op.priority ≤ o.rightBound := by
  cases op <;> cases o <;>
    simp [Operator.priority,Operator.rightBound,Operator.rightAssociative]

theorem groupsRight_iff (op o : Operator) :
    (op.priority < o.priority || (op.priority == o.priority && op.rightAssociative)) = true ↔
      op.rightBound < o.priority := by
  cases op <;> cases o <;>
    simp [Operator.priority,Operator.rightBound,Operator.rightAssociative]

theorem standsLeft_iff {op : Operator} {w : Phrase} :
    w.standsLeft op = true ↔
      w.endsInAssignment = false ∧ ∀ o ∈ w.root?, op.priority ≤ o.rightBound := by
  simp only [standsLeft,Bool.and_eq_true,Bool.not_eq_true',Option.all_eq_true,groupsLeft_iff,
    Option.mem_def]

theorem standsRight_iff {op : Operator} {w : Phrase} :
    w.standsRight op = true ↔ ∀ o ∈ w.root?, op.rightBound < o.priority := by
  simp only [standsRight,Option.all_eq_true,groupsRight_iff,Option.mem_def]

theorem forall_root? {w : Phrase} {P : Operator → Prop} (h : w.root? = none) :
    ∀ o ∈ w.root?, P o := by
  intro o ho
  rw [h] at ho
  cases ho

theorem standsLeft_of_operand {op : Operator} {w : Phrase} (hroot : w.root? = none)
    (ha : w.endsInAssignment = false) : w.standsLeft op = true :=
  standsLeft_iff.mpr ⟨ha,forall_root? hroot⟩

end Phrase

/-- A way to write a tree, with parentheses around every operand. -/
def Tree.phrase : Tree → Phrase
  | num x => .num x 0
  | const c => .const c c.name (Builtin.constant?_name c) 0
  | var name p => .var name p
  | assign name t => .assign name 0 0 t.phrase
  | call g t => .call g g.name (Builtin.function?_name g) 0 (.group 0 0 t.phrase)
  | bin op l r => .bin op 0 (.group 0 0 l.phrase) (.group 0 0 r.phrase)

/-- Every tree can be written. -/
theorem Tree.exists_phrase (t : Tree) : ∃ w : Phrase, w.tree = t ∧ w.wellBracketed = true := by
  refine ⟨t.phrase,?_,?_⟩
  · induction t with
    | num | const | var => rfl
    | assign name t ih | call g t ih => simp only [phrase,Phrase.tree,ih]
    | bin op l r ihl ihr => simp only [phrase,Phrase.tree,ihl,ihr]
  · induction t with
    | num | const | var => rfl
    | assign name t ih | call g t ih => exact ih
    | bin op l r ihl ihr =>
      simp only [phrase,Phrase.wellBracketed,ihl,ihr]
      rfl

end Reckoner
