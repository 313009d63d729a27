import Reckoner.Proofs.Derivation

namespace Reckoner

variable {part : Part} {r : Run} {ts us rest : List Lexeme} {env env' : Environment} {x : Float}
  {f : Fault}

/-- Lexemes that continue no phrase in front of them. -/
structure Inert (us : List Lexeme) : Prop where
  operator : operator? us = none
  sign : next? us ≠ some .equals

/-- Closing parentheses and nothing else. -/
def Closers (us : List Lexeme) : Prop := ∀ c ∈ us, c.token = .rparen

theorem Closers.inert (h : Closers us) : Inert us := by
  cases us with
  | nil => exact ⟨rfl,by simp⟩
  | cons c us =>
    obtain ⟨t,p⟩ := c
    have ht : t = .rparen := h _ List.mem_cons_self
    subst ht
    exact ⟨rfl,by simp⟩

theorem Closers.drop (h : Closers us) (k : Nat) : Closers (us.drop k) :=
  fun c hc => h c (List.mem_of_mem_drop hc)

theorem Inert.stops (h : Inert us) (bound : Nat) : Stops bound us :=
  (stops_zero_iff.mpr h.operator).mono (Nat.zero_le bound)

def Part.append (us : List Lexeme) : Part → Part
  | operand ts env => operand (ts ++ us) env
  | chain bound ts env => chain bound (ts ++ us) env
  | climb bound x ts env => climb bound x (ts ++ us) env

theorem next?_append_ne {t : Token} (hts : next? ts ≠ some t) (hus : ts ≠ [] ∨ next? us ≠ some t) :
    next? (ts ++ us) ≠ some t := by
  by_cases hne : ts = []
  · subst hne
    exact hus.resolve_left (fun h => h rfl)
  · rw [next?_append hne]
    exact hts

theorem Stops.append {bound : Nat} (hts : Stops bound ts) (hus : ts ≠ [] ∨ Stops bound us) :
    Stops bound (ts ++ us) := by
  by_cases hne : ts = []
  · subst hne
    exact hus.resolve_left (fun h => h rfl)
  · unfold Stops
    rw [operator?_append hne]
    exact hts

section Climb
variable {bound : Nat} {y : Float}

theorem Part.Gives.eq_of_climb_nil (h : (climb bound y [] env).Gives r) : r = .value y [] env :=
  h.run_eq.symm.trans (climb_nil bound y env)

theorem Part.Gives.ne_nil_of_value (h : (climb bound y ts env).Gives (.value x rest env'))
    (hne : rest ≠ []) : ts ≠ [] := by
  intro hts
  subst hts
  cases h.eq_of_climb_nil
  exact hne rfl

theorem Part.Gives.ne_nil_of_fault (h : (climb bound y ts env).Gives (.fault f rest env')) :
    ts ≠ [] := by
  intro hts
  subst hts
  cases h.eq_of_climb_nil

end Climb

/-- A value with lexemes left is final, and one with none left is final for what does not continue
it. -/
theorem Part.Gives.append_value (h : part.Gives r) (hr : r = .value x rest env')
    (us : List Lexeme) (hus : rest ≠ [] ∨ Inert us) :
    (part.append us).run = .value x (rest ++ us) env' := by
  induction h generalizing x rest env' with
  | missing env => cases hr
  | num y p ts env =>
    cases hr
    exact operand_num _ p _ env
  | group p inner ih =>
    obtain ⟨q,hq⟩ := Run.close_eq_value hr
    have hinner := ih hq (.inl (List.cons_ne_nil _ _))
    simp only [append,run] at hinner
    simp only [append,run,List.cons_append,operand_lparen,hinner]
    rfl
  | function p hg argument ih =>
    obtain ⟨y,hy,rfl⟩ := Run.map_eq_value hr
    have hargument := ih hy hus
    simp only [append,run] at hargument
    simp only [append,run,List.cons_append,operand_function p _ _ hg,hargument]
    rfl
  | constant p ts env hc =>
    cases hr
    exact operand_constant p _ env hc
  | assignment p q hn value ih =>
    obtain ⟨env₀,hv,rfl⟩ := Run.store_eq_value hr
    have hvalue := ih hv hus
    simp only [append,run] at hvalue
    simp only [append,run,List.cons_append,operand_assignment p _ _ q hn,hvalue]
    rfl
  | lookup p env hn hts =>
    obtain ⟨hx,rfl,rfl⟩ := Run.read_eq_value hr
    have hnext := next?_append_ne hts (hus.imp_right Inert.sign)
    simp only [append,run,List.cons_append,operand_read hn hnext,Run.read,hx]
  | unexpected p ts env ht => cases hr
  | chainFault first ih => cases hr
  | chainValue first others ihf iho =>
    subst hr
    have hfirst := ihf rfl (hus.imp_left others.ne_nil_of_value)
    have hothers := iho rfl hus
    simp only [append,run] at hfirst hothers ⊢
    rw [chain_eq,hfirst,Run.andThen_value,hothers]
  | climbEnd y env hs =>
    cases hr
    exact climb_of_stops (hs.append (hus.imp_right (fun h => h.stops _)))
  | climbFault y p hb right ih => cases hr
  | climbValue p hb right others ihr iho =>
    subst hr
    have hright := ihr rfl (hus.imp_left others.ne_nil_of_value)
    have hothers := iho rfl hus
    simp only [append,run,List.cons_append] at hright hothers ⊢
    rw [climb_operator _ _ p _ _ hb,hright,Run.andThen_value,hothers]

/-- Whether what comes next leaves the fault as it is. An unknown variable may yet be assigned. -/
def Fault.Spared (us : List Lexeme) : Fault → Prop
  | unknownVariable _ _ => next? us ≠ some .equals
  | _ => True

/-- With the filler and enough closing parentheses behind it, a part has a value, and only
parentheses that it does not need are left. -/
def Part.Completed (filler : List Lexeme) (part : Part) : Prop :=
  ∃ m, ∀ closers, Closers closers → m ≤ closers.length →
    ∃ x env', (part.append (filler ++ closers)).run = .value x (closers.drop m) env'

/-- The ways in which a part can be at fault: for good, for want of an operand, or for want of a
closing parenthesis. -/
inductive Part.Fails (part : Part) : Fault → List Lexeme → Environment → Prop where
  | lasting {f : Fault} {rest : List Lexeme} {env : Environment} (hf : f ≠ .unexpectedEndOfInput)
      (h : ∀ us, f.Spared us → (part.append us).run = .fault f (rest ++ us) env) :
      Fails part f rest env
  | operand {rest : List Lexeme} {env : Environment}
      (h : ∀ x p, part.Completed [⟨.num x,p⟩]) :
      Fails part .unexpectedEndOfInput rest env
  | closer {p : Nat} {rest : List Lexeme} {env : Environment} (h : part.Completed []) :
      Fails part (.unbalancedParentheses p) rest env

/-- What is done to a run inside a part: a fault passes through, and after a value at most some of
the parentheses are consumed. -/
structure Passes (g : Run → Run) : Prop where
  fault : ∀ f rest env, g (.fault f rest env) = .fault f rest env
  value : ∃ k, ∀ x closers env, Closers closers → k ≤ closers.length →
    ∃ y env', g (.value x closers env) = .value y (closers.drop k) env'

theorem Passes.completed {g : Run → Run} (hg : Passes g) {inner : Part} {filler : List Lexeme}
    (h : inner.Completed filler) (hrun : ∀ us, (part.append us).run = g (inner.append us).run) :
    part.Completed filler := by
  obtain ⟨m,hm⟩ := h
  obtain ⟨k,hk⟩ := hg.value
  refine ⟨m + k,?_⟩
  intro closers hc hlen
  obtain ⟨x,env,hx⟩ := hm closers hc (by omega)
  obtain ⟨y,env',hy⟩ := hk x (closers.drop m) env (hc.drop m) (by rw [List.length_drop]; omega)
  refine ⟨y,env',?_⟩
  rw [hrun,hx,hy,List.drop_drop]

theorem Passes.fails {g : Run → Run} (hg : Passes g) {inner : Part} (h : inner.Fails f rest env)
    (hrun : ∀ us, (part.append us).run = g (inner.append us).run) : part.Fails f rest env := by
  cases h with
  | lasting hf h =>
    refine .lasting hf ?_
    intro us hus
    rw [hrun,h us hus,hg.fault]
  | operand h => exact .operand (fun x p => hg.completed (h x p) hrun)
  | closer h => exact .closer (hg.completed h hrun)

theorem passes_id : Passes id :=
  ⟨fun _ _ _ => rfl,0,fun x _ env _ _ => ⟨x,env,rfl⟩⟩

theorem passes_map (k : Float → Float) : Passes (Run.map k) :=
  ⟨fun _ _ _ => rfl,0,fun x _ env _ _ => ⟨k x,env,rfl⟩⟩

theorem passes_store (name : String) : Passes (Run.store name) :=
  ⟨fun _ _ _ => rfl,0,fun x _ env _ _ => ⟨x,env.set name x,rfl⟩⟩

theorem Closers.close {x : Float} (h : Closers us) (hlen : 1 ≤ us.length) (p : Nat) :
    (Run.value x us env).close p = .value x (us.drop 1) env := by
  cases us with
  | nil => cases hlen
  | cons c us =>
    obtain ⟨t,q⟩ := c
    have ht : t = .rparen := h _ List.mem_cons_self
    subst ht
    rfl

theorem passes_close (p : Nat) : Passes (Run.close p) :=
  ⟨fun _ _ _ => rfl,1,fun x _ env hc hlen => ⟨x,env,hc.close hlen p⟩⟩

theorem passes_climb (bound : Nat) (k : Float → Float) :
    Passes (fun r => r.andThen (fun x => climb bound (k x))) := by
  refine ⟨fun _ _ _ => rfl,0,?_⟩
  intro x closers env hc _
  exact ⟨k x,env,climb_of_stops (hc.inert.stops bound)⟩

theorem Run.close_of_ne {p : Nat} (h : next? ts ≠ some .rparen) :
    (value x ts env).close p = .fault (.unbalancedParentheses p) ts.tail env := by
  unfold close
  split
  · rename_i heq
    cases heq
    exact absurd rfl h
  · rename_i heq
    cases heq
    rfl
  · rename_i heq
    cases heq

/-- A group whose inside has a value lacks its parenthesis, or has another lexeme in its place. -/
theorem fails_group {p : Nat} {env₀ : Environment}
    (inner : (Part.chain 0 ts env).Gives (.value x rest env₀))
    (hne : next? rest ≠ some .rparen) :
    (Part.operand (⟨.lparen,p⟩ :: ts) env).Fails (.unbalancedParentheses p) rest.tail env₀ := by
  have hrun : ∀ us, rest ≠ [] ∨ Inert us →
      ((Part.operand (⟨.lparen,p⟩ :: ts) env).append us).run =
        (Run.value x (rest ++ us) env₀).close p := by
    intro us hus
    have hinner := inner.append_value rfl us hus
    simp only [Part.append,Part.run] at hinner
    simp only [Part.append,Part.run,List.cons_append,operand_lparen,hinner]
  by_cases hrest : rest = []
  · subst hrest
    refine .closer ⟨1,?_⟩
    intro closers hc hlen
    refine ⟨x,env₀,?_⟩
    exact (hrun closers (.inr hc.inert)).trans (hc.close hlen p)
  · refine .lasting (by simp) ?_
    intro us _
    have hnext : next? (rest ++ us) ≠ some .rparen := next?_append_ne hne (.inl hrest)
    rw [hrun us (.inl hrest),Run.close_of_ne hnext,List.tail_append_of_ne_nil hrest]

theorem Part.Gives.fails (h : part.Gives r) (hr : r = .fault f rest env') :
    part.Fails f rest env' := by
  induction h generalizing f rest env' with
  | missing env =>
    cases hr
    refine .operand ?_
    intro x p
    refine ⟨0,?_⟩
    intro closers _ _
    exact ⟨x,env,operand_num x p closers env⟩
  | num => cases hr
  | group p inner ih =>
    rcases Run.close_eq_fault hr with hfault | ⟨x,left,rfl,hne,rfl,rfl⟩
    · exact (passes_close p).fails (ih hfault) (fun us => operand_lparen p _ _)
    · exact fails_group inner hne
  | function p hg argument ih =>
    have hargument := ih (Run.map_eq_fault hr)
    exact (passes_map _).fails hargument (fun us => operand_function p _ _ hg)
  | constant => cases hr
  | assignment p q hn value ih =>
    have hvalue := ih (Run.store_eq_fault hr)
    exact (passes_store _).fails hvalue (fun us => operand_assignment p _ _ q hn)
  | lookup p env hn hts =>
    obtain ⟨hnone,rfl,rfl,rfl⟩ := Run.read_eq_fault hr
    refine .lasting (by simp) ?_
    intro us hus
    have hnext := next?_append_ne hts (.inr hus)
    simp only [append,run,List.cons_append,operand_read hn hnext,Run.read,hnone]
  | unexpected p ts env ht =>
    cases hr
    refine .lasting (by simp) ?_
    intro us _
    exact operand_unexpected p _ env ht
  | chainFault first ih =>
    cases hr
    exact (passes_climb _ id).fails (ih rfl) (fun us => chain_eq _ _ _)
  | chainValue first others ihf iho =>
    subst hr
    refine passes_id.fails (iho rfl) ?_
    intro us
    -- Some lexemes are left for the climb that fails, so the value before it is final.
    have hfirst := first.append_value rfl us (.inl others.ne_nil_of_fault)
    simp only [append,run] at hfirst ⊢
    rw [chain_eq,hfirst]
    rfl
  | climbEnd => cases hr
  | climbFault x p hb right ih =>
    cases hr
    exact (passes_climb _ _).fails (ih rfl) (fun us => climb_operator _ _ p _ _ hb)
  | climbValue p hb right others ihr iho =>
    subst hr
    refine passes_id.fails (iho rfl) ?_
    intro us
    have hright := right.append_value rfl us (.inl others.ne_nil_of_fault)
    simp only [append,run,List.cons_append] at hright ⊢
    rw [climb_operator _ _ p _ _ hb,hright]
    rfl

/-- With the filler and enough closing parentheses behind them, the lexemes have a value. -/
def Completable (ts filler : List Lexeme) (env : Environment) : Prop :=
  ∃ m, ∀ closers, Closers closers → m ≤ closers.length →
    ∃ x env', evaluateLexemes (ts ++ filler ++ closers) env = (.ok (some x),env')

theorem completable_of_completed {filler : List Lexeme} (hne : ts ≠ [])
    (h : (Part.chain 0 ts env).Completed filler) : Completable ts filler env := by
  obtain ⟨m,hm⟩ := h
  refine ⟨m,?_⟩
  intro closers hc hlen
  obtain ⟨x,env',hx⟩ := hm closers hc hlen
  refine ⟨x,env',?_⟩
  simp only [Part.append,Part.run] at hx
  rw [List.append_assoc,evaluateLexemes_eq (List.append_ne_nil_of_left_ne_nil hne _),hx]
  rfl

theorem evaluateLexemes_of_lasting (hne : ts ≠ [])
    (h : ∀ us, f.Spared us → ((Part.chain 0 ts env).append us).run = .fault f (rest ++ us) env')
    (hus : f.Spared us) : evaluateLexemes (ts ++ us) env = (.error f,env') := by
  have hchain := h us hus
  simp only [Part.append,Part.run] at hchain
  rw [evaluateLexemes_eq (List.append_ne_nil_of_left_ne_nil hne us),hchain]
  rfl

/-- A fault is raised where the lexemes stop being the beginning of an expression with a value.
Where the input ended too early, any number and enough closing parentheses complete it. An
unbalanced group is completed by closing parentheses alone, or another lexeme stood in the place of
one. That fault, as one of an unexpected lexeme, is the same whatever follows, with the same
environment; and so is an unknown variable, unless what follows assigns it. -/
theorem evaluateLexemes_append_of_error (ts : List Lexeme) (env : Environment) (f : Fault)
    (env' : Environment) (h : evaluateLexemes ts env = (.error f,env')) :
    (f = .unexpectedEndOfInput → ∀ x p, Completable ts [⟨.num x,p⟩] env) ∧
    (∀ p, f = .unbalancedParentheses p →
      Completable ts [] env ∨ ∀ us, evaluateLexemes (ts ++ us) env = (.error f,env')) ∧
    (∀ t p, f = .unexpectedToken t p →
      ∀ us, evaluateLexemes (ts ++ us) env = (.error f,env')) ∧
    (∀ name p, f = .unknownVariable name p →
      ∀ us, next? us ≠ some .equals → evaluateLexemes (ts ++ us) env = (.error f,env')) := by
  have hne : ts ≠ [] := by
    intro hts
    subst hts
    cases h
  have gives := (Part.chain 0 ts env).gives_run
  rw [evaluateLexemes_eq hne] at h
  simp only [Part.run] at gives
  cases hr : chain 0 ts env with
  | value x rest env₀ =>
    rw [hr] at h
    cases h
  | fault f' rest env₀ =>
    rw [hr] at h gives
    cases h
    cases gives.fails rfl with
    | lasting hf hlast =>
      have same : ∀ us, f.Spared us → evaluateLexemes (ts ++ us) env = (.error f,env₀) :=
        fun us hus => evaluateLexemes_of_lasting hne hlast hus
      refine ⟨fun he => absurd he hf,?_,?_,?_⟩
      · intro p hp
        subst hp
        exact .inr (fun us => same us trivial)
      · intro t p ht us
        subst ht
        exact same us trivial
      · intro name p hname us hus
        subst hname
        exact same us hus
    | operand hcomplete =>
      refine ⟨?_,by simp,by simp,by simp⟩
      intro _ x p
      exact completable_of_completed hne (hcomplete x p)
    | closer hcomplete =>
      refine ⟨by simp,?_,by simp,by simp⟩
      intro p _
      exact .inl (completable_of_completed hne hcomplete)

/-- The lexemes of `a = sin (2 +`, of `(a = 2`, of `(a = 2) * *` and of `(b + 2`. -/
theorem evaluateLexemes_append_of_error_met :
    Completable [⟨.ident "a",0⟩,⟨.equals,2⟩,⟨.ident "sin",4⟩,⟨.lparen,8⟩,⟨.num 2,9⟩,⟨.plus,11⟩]
      [⟨.num 7,13⟩] .empty ∧
    (Completable [⟨.lparen,0⟩,⟨.ident "a",1⟩,⟨.equals,3⟩,⟨.num 2,5⟩] [] .empty ∨
      ∀ us, evaluateLexemes ([⟨.lparen,0⟩,⟨.ident "a",1⟩,⟨.equals,3⟩,⟨.num 2,5⟩] ++ us) .empty =
        (.error (.unbalancedParentheses 0),Environment.empty.set "a" 2)) ∧
    (∀ us, evaluateLexemes ([⟨.lparen,0⟩,⟨.ident "a",1⟩,⟨.equals,3⟩,⟨.num 2,5⟩,⟨.rparen,6⟩,
        ⟨.star,8⟩,⟨.star,10⟩] ++ us) .empty =
      (.error (.unexpectedToken .star 10),Environment.empty.set "a" 2)) ∧
    evaluateLexemes ([⟨.lparen,0⟩,⟨.ident "b",1⟩,⟨.plus,3⟩,⟨.num 2,5⟩] ++ [⟨.rparen,6⟩]) .empty =
      (.error (.unknownVariable "b" 1),.empty) := by
  refine ⟨?_,?_,?_,?_⟩
  · exact (evaluateLexemes_append_of_error _ .empty .unexpectedEndOfInput .empty
      (by with_unfolding_all rfl)).1 rfl 7 13
  · exact (evaluateLexemes_append_of_error _ .empty (.unbalancedParentheses 0)
      (Environment.empty.set "a" 2) (by with_unfolding_all rfl)).2.1 0 rfl
  · exact (evaluateLexemes_append_of_error _ .empty (.unexpectedToken .star 10)
      (Environment.empty.set "a" 2) (by with_unfolding_all rfl)).2.2.1 .star 10 rfl
  · exact (evaluateLexemes_append_of_error _ .empty (.unknownVariable "b" 1) .empty
      (by with_unfolding_all rfl)).2.2.2 "b" 1 rfl [⟨.rparen,6⟩] (by simp)

end Reckoner
