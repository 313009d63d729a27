import Reckoner.Proofs.Completion

namespace Reckoner

variable {ts us vs : List Lexeme} {env : Environment} {part : Part} {r : Run}

/-- An unknown lexeme comes next. It is no operand, continues no phrase and closes no group, so no
evaluation gets past it. -/
def Bars (us : List Lexeme) : Prop := ∃ w, next? us = some (.unknown w)

theorem Bars.inert (h : Bars us) : Inert us := by
  obtain ⟨w,hw⟩ := h
  exact ⟨by rw [operator?,hw]; rfl,by simp [hw]⟩

theorem Bars.ne_rparen (h : Bars us) : next? us ≠ some .rparen := by
  obtain ⟨w,hw⟩ := h
  simp [hw]

theorem Bars.ne_nil (h : Bars us) : us ≠ [] := by
  rintro rfl
  obtain ⟨w,hw⟩ := h
  cases hw

/-- An unknown lexeme in the place of an operand is a fault. -/
theorem Bars.operand (h : Bars us) (env : Environment) :
    ∃ f rest, operand us env = .fault f rest env := by
  obtain ⟨w,hw⟩ := h
  obtain ⟨p,vs,rfl⟩ := next?_eq_some_iff.mp hw
  exact ⟨_,vs,operand_unexpected p vs env rfl⟩

def Part.FailsBefore (us : List Lexeme) (part : Part) : Prop :=
  ∃ f rest env, (part.append us).run = .fault f rest env

theorem Passes.failsBefore {g : Run → Run} (hg : Passes g) {inner : Part}
    (h : inner.FailsBefore us) (hrun : (part.append us).run = g (inner.append us).run) :
    part.FailsBefore us := by
  obtain ⟨f,rest,env,hf⟩ := h
  exact ⟨f,rest,env,by rw [hrun,hf,hg.fault]⟩

/-- A part that is at fault stays so before an unknown lexeme. -/
theorem Part.Gives.failsBefore {f : Fault} {rest : List Lexeme} {env' : Environment}
    (h : part.Gives r) (hr : r = .fault f rest env') (hus : Bars us) : part.FailsBefore us := by
  induction h generalizing f rest env' with
  | missing env =>
    obtain ⟨f,rest,hf⟩ := hus.operand env
    exact ⟨f,rest,env,hf⟩
  | num | constant | climbEnd => cases hr
  | @group p ts env r inner ih =>
    rcases Run.close_eq_fault hr with hfault | ⟨x,left,rfl,hne,_,_⟩
    · exact (passes_close p).failsBefore (ih hfault) (operand_lparen p _ _)
    · have hinner := inner.append_value rfl us (.inr hus.inert)
      have hnext : next? (left ++ us) ≠ some .rparen := next?_append_ne hne (.inr hus.ne_rparen)
      simp only [append,run] at hinner
      have hclose := (congrArg (Run.close p) hinner).trans (Run.close_of_ne hnext)
      exact ⟨_,_,_,(operand_lparen p _ _).trans hclose⟩
  | function p hg argument ih =>
    exact (passes_map _).failsBefore (ih (Run.map_eq_fault hr)) (operand_function p _ _ hg)
  | assignment p q hn value ih =>
    exact (passes_store _).failsBefore (ih (Run.store_eq_fault hr)) (operand_assignment p _ _ q hn)
  | @lookup p name ts env hn hts =>
    obtain ⟨hnone,_,_,_⟩ := Run.read_eq_fault hr
    have hnext := next?_append_ne hts (.inr hus.inert.sign)
    have hread :
        Run.read name p (ts ++ us) env = .fault (.unknownVariable name p) (ts ++ us) env := by
      rw [Run.read,hnone]
    exact ⟨_,_,_,(operand_read hn hnext).trans hread⟩
  | unexpected p ts env ht => exact ⟨_,_,_,operand_unexpected p _ env ht⟩
  | chainFault first ih =>
    cases hr
    exact (passes_climb _ id).failsBefore (ih rfl) (chain_eq _ _ _)
  | chainValue first others ihf iho =>
    subst hr
    have hfirst := first.append_value rfl us (.inl others.ne_nil_of_fault)
    simp only [append,run] at hfirst
    refine passes_id.failsBefore (iho rfl) ?_
    rw [append,run,chain_eq,hfirst]
    rfl
  | climbFault x p hb right ih =>
    cases hr
    exact (passes_climb _ _).failsBefore (ih rfl) (climb_operator _ _ p _ _ hb)
  | climbValue p hb right others ihr iho =>
    subst hr
    have hright := right.append_value rfl us (.inl others.ne_nil_of_fault)
    simp only [append,run] at hright
    refine passes_id.failsBefore (iho rfl) ?_
    rw [append,run,List.cons_append,climb_operator _ _ p _ _ hb,hright]
    rfl

/-- Two evaluations are both at fault, or they have the same value and leave the same variables. -/
inductive Alike : Outcome × Environment → Outcome × Environment → Prop where
  | value (x : Option Float) (env : Environment) : Alike (.ok x,env) (.ok x,env)
  | fault (f f' : Fault) (env env' : Environment) : Alike (.error f,env) (.error f',env')

namespace Alike
variable {a b c : Outcome × Environment}

theorem refl (a : Outcome × Environment) : Alike a a := by
  obtain ⟨o,env⟩ := a
  cases o with
  | ok x => exact .value x env
  | error f => exact .fault f f env env

theorem symm (h : Alike a b) : Alike b a := by
  cases h with
  | value x env => exact .value x env
  | fault f f' env env' => exact .fault f' f env' env

theorem trans (h : Alike a b) (h' : Alike b c) : Alike a c := by
  cases h with
  | value x env => exact h'
  | fault f f' env env' =>
    cases h' with
    | fault f' f'' env' env'' => exact .fault f f'' env env''

theorem of_mapError (g : Fault → Fault) (a : Outcome × Environment) :
    Alike (a.1.mapError g,a.2) a := by
  obtain ⟨o,env⟩ := a
  cases o with
  | ok x => exact .value x env
  | error f => exact .fault (g f) f env env

end Alike

/-- An unknown lexeme behind an expression changes nothing but its fault. -/
theorem alike_append (hts : ts ≠ []) (hus : us = [] ∨ Bars us) (env : Environment) :
    Alike (evaluateLexemes (ts ++ us) env) (evaluateLexemes ts env) := by
  rcases hus with rfl | hus
  · rw [List.append_nil]
    exact .refl _
  · have gives := (Part.chain 0 ts env).gives_run
    rw [evaluateLexemes_eq (List.append_ne_nil_of_left_ne_nil hts us),evaluateLexemes_eq hts]
    simp only [Part.run] at gives
    cases hr : chain 0 ts env with
    | value x rest env' =>
      rw [hr] at gives
      have hrun := gives.append_value rfl us (.inr hus.inert)
      simp only [Part.append,Part.run] at hrun
      rw [hrun]
      exact .value (some x) env'
    | fault f rest env' =>
      rw [hr] at gives
      obtain ⟨f',rest',env'',hrun⟩ := gives.failsBefore rfl hus
      simp only [Part.append,Part.run] at hrun
      rw [hrun]
      exact .fault f' f env'' env'

theorem Bars.evaluateLexemes (h : Bars us) (env : Environment) :
    ∃ f, evaluateLexemes us env = (.error f,env) := by
  obtain ⟨f,rest,hf⟩ := h.operand env
  refine ⟨f,?_⟩
  rw [evaluateLexemes_eq h.ne_nil,chain_eq,hf]
  rfl

/-- Expressions that go on differently, but each with an unknown lexeme or not at all, are alike. If
there is nothing before that, both go on. -/
theorem alike_of_bars (hus : us = [] ∨ Bars us) (hvs : vs = [] ∨ Bars vs)
    (hts : ts = [] → Bars us ∧ Bars vs) (env : Environment) :
    Alike (evaluateLexemes (ts ++ us) env) (evaluateLexemes (ts ++ vs) env) := by
  by_cases hne : ts = []
  · obtain ⟨hu,hv⟩ := hts hne
    obtain ⟨f,hf⟩ := hu.evaluateLexemes env
    obtain ⟨f',hf'⟩ := hv.evaluateLexemes env
    rw [hne,List.nil_append,List.nil_append,hf,hf']
    exact .fault f f' env env
  · exact (alike_append hne hus env).trans (alike_append hne hvs env).symm

end Reckoner
