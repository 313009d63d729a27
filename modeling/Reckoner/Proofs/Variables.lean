import Reckoner.Proofs.Standing
import Reckoner.Proofs.Stores

namespace Reckoner

/-- The variables after expressions that are evaluated one after the other, each with the variables
that the ones before it left. A fault does not end the row. -/
def evaluateAll (sources : List String) (env : Environment) : Environment :=
  sources.foldl (fun env source => (evaluate source env).2) env

variable {source name : String} {env : Environment}

namespace Assigns

theorem mem_equals {ts : List Lexeme} (h : Assigns ts name) : ∃ q, ⟨.equals,q⟩ ∈ ts := by
  obtain ⟨p,q,h⟩ := h
  exact ⟨q,h.subset (by simp)⟩

theorem isName (h : Assigns (lexemes source) name) : IsName name.toList := by
  obtain ⟨p,q,h⟩ := h
  obtain ⟨rest,hst⟩ := standsIn_of_mem (h.subset List.mem_cons_self) (by simp) (by simp)
  exact (hst.name name rfl).1

end Assigns

theorem Environment.contains_storeAll (stores : List (String × Float))
    (h : env.contains name = true) : (env.storeAll stores).contains name = true := by
  rw [contains_eq_isSome] at h ⊢
  rcases get?_storeAll stores name with ⟨x,_,hget⟩ | ⟨_,hget⟩
  · rw [hget env]
    rfl
  · rwa [hget env]

theorem evaluate_eq_storeAll (source : String) (env : Environment) :
    ∃ stores : List (String × Float),
      (∀ s ∈ stores, Assigns (lexemes source) s.1 ∧ Builtin.isReserved s.1 = false) ∧
      (evaluate source env).2 = env.storeAll stores :=
  evaluateLexemes_eq_storeAll (lexemes source) env

theorem get?_evaluate (h : ¬ Assigns (lexemes source) name) (env : Environment) :
    (evaluate source env).2.get? name = env.get? name :=
  get?_evaluateLexemes h env

theorem contains_evaluate (source : String) (h : env.contains name = true) :
    (evaluate source env).2.contains name = true := by
  obtain ⟨stores,_,henv⟩ := evaluate_eq_storeAll source env
  rw [henv]
  exact Environment.contains_storeAll stores h

theorem size_le_evaluate (source : String) (env : Environment) :
    env.size ≤ (evaluate source env).2.size := by
  obtain ⟨stores,_,henv⟩ := evaluate_eq_storeAll source env
  rw [henv]
  exact Environment.size_le_storeAll stores env

/-- A variable that is new was assigned, under a name that is neither a function nor a constant. -/
theorem assigned_of_evaluate (h : (evaluate source env).2.contains name = true) :
    env.contains name = true ∨
      Assigns (lexemes source) name ∧ Builtin.isReserved name = false := by
  obtain ⟨stores,hstores,henv⟩ := evaluate_eq_storeAll source env
  rw [henv,Environment.contains_eq_isSome] at h
  rcases Environment.get?_storeAll stores name with ⟨x,hx,_⟩ | ⟨_,hget⟩
  · exact .inr (hstores (name,x) hx)
  · rw [hget env,← Environment.contains_eq_isSome] at h
    exact .inl h

/-- Each variable after a row of expressions was there before or was assigned by one of them. -/
theorem assigned_of_evaluateAll {sources : List String}
    (h : (evaluateAll sources env).contains name = true) :
    env.contains name = true ∨
      ∃ s ∈ sources, Assigns (lexemes s) name ∧ Builtin.isReserved name = false := by
  induction sources generalizing env with
  | nil => exact .inl h
  | cons s sources ih =>
    rcases ih h with h | ⟨s',hs',found⟩
    · rcases assigned_of_evaluate h with h | found
      · exact .inl h
      · exact .inr ⟨s,List.mem_cons_self,found⟩
    · exact .inr ⟨s',List.mem_cons_of_mem s hs',found⟩

/-- In a session that begins without variables each variable has the spelling of a name, which is
that of no function and no constant in any letter case, and stands before a sign of assignment in
one of the expressions so far. No single evaluation loses a variable or changes one that it does not
assign; so there never are fewer, and without a sign of assignment nothing changes at all. -/
theorem evaluateAll_variables (sources : List String) :
    (∀ name, (evaluateAll sources .empty).contains name = true →
      IsName name.toList ∧
      (∀ f : Builtin.Function, Builtin.sameName f.name name = false) ∧
      (∀ c : Builtin.Constant, Builtin.sameName c.name name = false) ∧
      ∃ s ∈ sources, Assigns (lexemes s) name) ∧
    ∀ (source : String) (env : Environment),
      (∀ name, env.contains name = true → (evaluate source env).2.contains name = true) ∧
      (∀ name, ¬ Assigns (lexemes source) name →
        (evaluate source env).2.get? name = env.get? name) ∧
      env.size ≤ (evaluate source env).2.size ∧
      ((∀ q, ⟨.equals,q⟩ ∉ lexemes source) → (evaluate source env).2 = env) := by
  refine ⟨?_,?_⟩
  · intro name h
    rcases assigned_of_evaluateAll h with h | ⟨s,hs,hassigns,hfree⟩
    · rw [Environment.contains_eq_isSome,Environment.get?_empty] at h
      cases h
    · obtain ⟨hf,hc⟩ := Builtin.isReserved_eq_false_iff.mp hfree
      exact ⟨hassigns.isName,hf,hc,s,hs,hassigns⟩
  · intro source env
    refine ⟨fun name => contains_evaluate source,fun name hn => get?_evaluate hn env,
      size_le_evaluate source env,?_⟩
    intro hq
    apply Environment.ext
    intro name
    refine get?_evaluate ?_ env
    intro h
    obtain ⟨q,hmem⟩ := h.mem_equals
    exact hq q hmem

/-- The first expression fails before it stores, the second one after it has. -/
theorem evaluateAll_variables_failing :
    (evaluateAll ["sin = 3","(ab_1 = pi) * é"] .empty).contains "ab_1" = true ∧
    IsName "ab_1".toList ∧
    (∃ s ∈ ["sin = 3","(ab_1 = pi) * é"], Assigns (lexemes s) "ab_1") ∧
    (evaluateAll ["sin = 3","(ab_1 = pi) * é"] .empty).get? "sin" = none := by
  have h : (evaluateAll ["sin = 3","(ab_1 = pi) * é"] .empty).contains "ab_1" = true := by
    decide +kernel
  have named := (evaluateAll_variables ["sin = 3","(ab_1 = pi) * é"]).1
  obtain ⟨hname,_,_,hassigns⟩ := named "ab_1" h
  refine ⟨h,hname,hassigns,?_⟩
  by_contra hne
  have taken : (evaluateAll ["sin = 3","(ab_1 = pi) * é"] .empty).contains "sin" = true := by
    rw [Environment.contains_eq_isSome]
    exact Option.isSome_iff_ne_none.mpr hne
  exact absurd ((named "sin" taken).2.1 .sin) (by decide)

end Reckoner
