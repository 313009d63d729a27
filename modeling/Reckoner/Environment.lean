import Std.Data.ExtTreeMap

namespace Reckoner

/-- The values of the variables, by name. Two environments are equal when every name has the same
value in both. -/
structure Environment where
  values : Std.ExtTreeMap String Float compare

namespace Environment

def empty : Environment := ⟨∅⟩

def get? (env : Environment) (name : String) : Option Float := env.values[name]?

def set (env : Environment) (name : String) (value : Float) : Environment :=
  ⟨env.values.insert name value⟩

def contains (env : Environment) (name : String) : Bool := env.values.contains name

def size (env : Environment) : Nat := env.values.size

def isEmpty (env : Environment) : Bool := env.values.isEmpty

/-- The variables in the order of their names. -/
def toList (env : Environment) : List (String × Float) := env.values.toList

/-- Whether two environments hold the same names with equal numbers. Here 0 equals -0, and NaN does
not equal itself. -/
def agrees (a b : Environment) : Bool :=
  a.size == b.size && a.toList.all (fun (name,x) => (b.get? name).any (x == ·))

@[ext]
theorem ext {a b : Environment} (h : ∀ name, a.get? name = b.get? name) : a = b := by
  obtain ⟨a⟩ := a
  obtain ⟨b⟩ := b
  exact congrArg mk (Std.ExtTreeMap.ext_getElem? h)

@[simp]
theorem get?_empty (name : String) : empty.get? name = none :=
  Std.ExtTreeMap.getElem?_empty

theorem get?_set (env : Environment) (name other : String) (x : Float) :
    (env.set name x).get? other = if name = other then some x else env.get? other := by
  simp only [get?,set,Std.ExtTreeMap.getElem?_insert,Std.compare_eq_iff_eq]

@[simp]
theorem get?_set_self (env : Environment) (name : String) (x : Float) :
    (env.set name x).get? name = some x := by
  simp only [get?_set,if_true]

theorem get?_set_of_ne (env : Environment) {name other : String} (x : Float) (h : name ≠ other) :
    (env.set name x).get? other = env.get? other := by
  simp only [get?_set,h,if_false]

theorem contains_eq_isSome (env : Environment) (name : String) :
    env.contains name = (env.get? name).isSome :=
  Std.ExtTreeMap.contains_eq_isSome_getElem?

theorem mem_toList (env : Environment) (name : String) (x : Float) :
    (name,x) ∈ env.toList ↔ env.get? name = some x :=
  Std.ExtTreeMap.mem_toList_iff_getElem?_eq_some

theorem size_le_set (env : Environment) (name : String) (x : Float) :
    env.size ≤ (env.set name x).size :=
  Std.ExtTreeMap.size_le_size_insert

end Environment

end Reckoner
