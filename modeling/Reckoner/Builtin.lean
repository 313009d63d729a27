import Reckoner.Fault
import Reckoner.Number.Binary

namespace Reckoner

namespace Builtin

inductive Function where
  | sin
  | cos
  | tan
  | sqrt
  | round
  | ln
deriving Repr,DecidableEq

namespace Function

def all : List Function := [sin,cos,tan,sqrt,round,ln]

def name : Function → String
  | sin => "sin"
  | cos => "cos"
  | tan => "tan"
  | sqrt => "sqrt"
  | round => "round"
  | ln => "ln"

def apply : Function → Float → Float
  | sin => Float.sin
  | cos => Float.cos
  | tan => Float.tan
  | sqrt => Float.sqrt
  | round => Number.roundHalfUp
  | ln => Float.log

end Function

inductive Constant where
  | pi
  | e
deriving Repr,DecidableEq

namespace Constant

def all : List Constant := [pi,e]

def name : Constant → String
  | pi => "pi"
  | e => "e"

/-- The doubles nearest to π and to e. -/
def value : Constant → Float
  | pi => Float.ofBits 0x400921fb54442d18
  | e => Float.ofBits 0x4005bf0a8b145769

end Constant

/-- Whether two names differ at most in the case of ASCII letters. -/
def sameName (a b : String) : Bool := a.toList.map Char.toLower == b.toList.map Char.toLower

def function? (name : String) : Option Function :=
  Function.all.find? (fun f => sameName f.name name)

def constant? (name : String) : Option Constant :=
  Constant.all.find? (fun c => sameName c.name name)

def isFunction (name : String) : Bool := (function? name).isSome

/-- Whether a name is taken by a function or a constant, in any letter case. No variable can have
it. -/
def isReserved (name : String) : Bool := (function? name).isSome || (constant? name).isSome

def call (name : String) (argument : Float) (position : Nat) : Except Fault Float :=
  match function? name with
  | some f => .ok (f.apply argument)
  | none => .error (.unknownFunction name position)

theorem Function.mem_all (f : Function) : f ∈ all := by
  cases f <;> decide

theorem Constant.mem_all (c : Constant) : c ∈ all := by
  cases c <;> decide

/-- A name is free if it differs from the name of each function and constant in any letter case. -/
theorem isReserved_eq_false_iff {name : String} :
    isReserved name = false ↔ (∀ f : Function, sameName f.name name = false) ∧
      ∀ c : Constant, sameName c.name name = false := by
  simp only [isReserved,function?,constant?,Bool.or_eq_false_iff,Option.isSome_eq_false_iff,
    Option.isNone_iff_eq_none,List.find?_eq_none,Function.mem_all,Constant.mem_all,forall_const,
    Bool.not_eq_true]

theorem function?_name (f : Function) : function? f.name = some f := by
  cases f <;> decide

theorem constant?_name (c : Constant) : constant? c.name = some c := by
  cases c <;> decide

theorem function?_of_sameName {name : String} {f : Function} (h : sameName f.name name = true) :
    function? name = some f := by
  simp only [sameName,beq_iff_eq] at h
  rw [← function?_name f]
  simp only [function?,sameName,h]

/-- A name that was found to be a function is never unknown when it is called. -/
theorem call_of_function? {name : String} {f : Function} (h : function? name = some f) (x : Float)
    (position : Nat) : call name x position = .ok (f.apply x) := by
  simp only [call,h]

/-- No name stands for both a function and a constant. -/
theorem constant?_of_function? {name : String} {f : Function} (h : function? name = some f) :
    constant? name = none := by
  have hf := List.find?_some h
  simp only [sameName,beq_iff_eq] at hf
  simp only [constant?,sameName,← hf]
  cases f <;> decide

theorem function?_of_constant? {name : String} {c : Constant} (h : constant? name = some c) :
    function? name = none := by
  cases hf : function? name with
  | none => rfl
  | some f =>
    rw [constant?_of_function? hf] at h
    cases h

theorem function?_of_free {name : String} (h : isReserved name = false) :
    function? name = none := by
  simp only [isReserved,Bool.or_eq_false_iff,Option.isSome_eq_false_iff,
    Option.isNone_iff_eq_none] at h
  exact h.1

theorem constant?_of_free {name : String} (h : isReserved name = false) :
    constant? name = none := by
  simp only [isReserved,Bool.or_eq_false_iff,Option.isSome_eq_false_iff,
    Option.isNone_iff_eq_none] at h
  exact h.2

end Builtin

end Reckoner
