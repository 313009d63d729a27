import Reckoner.Proofs.Precedence

namespace Reckoner

/-- A phrase has been read off the front of the lexemes. It has no operator outside parentheses that
is as loose as the bound, and its value is the one computed. -/
structure Phrase.Reads (w : Phrase) (bound : Nat) (ts rest : List Lexeme) (env : Environment)
    (x : Float) (env' : Environment) : Prop where
  lexemes : ts = w.lexemes ++ rest
  wellBracketed : w.wellBracketed = true
  tight : ∀ o ∈ w.root?, bound < o.priority
  admits : w.Admits rest
  meaning : w.tree.meaning env = (.ok x,env')

namespace Phrase.Reads
variable {w l r : Phrase} {bound p q : Nat} {ts us rest : List Lexeme}
  {env env' env'' : Environment} {x y : Float}

theorem root?_eq_none (h : w.Reads 3 ts rest env x env') : w.root? = none := by
  cases ho : w.root? with
  | none => rfl
  | some o =>
    have := h.tight o ho
    cases o <;> simp [Operator.priority] at this

theorem of_operand (h : w.Reads 3 ts rest env x env') : w.Reads bound ts rest env x env' := by
  exact ⟨h.lexemes,h.wellBracketed,forall_root? h.root?_eq_none,h.admits,h.meaning⟩

/-- An operand at which no sign and no assignment is open admits any operator. -/
theorem admits_of_closed (hroot : w.root? = none) (ha : w.endsInAssignment = false)
    (hs : w.endsInVariable = true → next? rest ≠ some .equals) : w.Admits rest := by
  refine ⟨?_,hs⟩
  intro op _
  exact standsLeft_of_operand hroot ha

theorem assign (h : w.Reads 0 ts rest env x env') (hs : Stops 0 rest) (name : FreeName) :
    (Phrase.assign name p q w).Reads 3 (⟨.ident name.1,p⟩ :: ⟨.equals,q⟩ :: ts) rest env x
      (env'.set name.1 x) := by
  refine ⟨?_,h.wellBracketed,forall_root? rfl,⟨?_,h.admits.sign⟩,?_⟩
  · rw [h.lexemes]
    rfl
  · intro op ho
    rw [stops_zero_iff.mp hs] at ho
    cases ho
  · simp only [tree,Tree.meaning,h.meaning,Meaning.andThen]

theorem call {g : Builtin.Function} {name : String} (h : w.Reads 3 ts rest env x env')
    (hg : Builtin.function? name = some g) :
    (Phrase.call g name hg p w).Reads 3 (⟨.ident name,p⟩ :: ts) rest env (g.apply x) env' := by
  refine ⟨?_,?_,forall_root? rfl,⟨?_,h.admits.sign⟩,?_⟩
  · rw [h.lexemes]
    rfl
  · simp only [Phrase.wellBracketed,h.root?_eq_none,h.wellBracketed]
    rfl
  · intro op ho
    exact standsLeft_of_operand rfl (standsLeft_iff.mp (h.admits.operator op ho)).1
  · simp only [tree,Tree.meaning,h.meaning,Meaning.andThen]

theorem group (h : w.Reads 0 ts (⟨.rparen,q⟩ :: rest) env x env') :
    (Phrase.group p q w).Reads 3 (⟨.lparen,p⟩ :: ts) rest env x env' := by
  refine ⟨?_,h.wellBracketed,forall_root? rfl,?_,h.meaning⟩
  · rw [h.lexemes,Phrase.lexemes,List.cons_append,List.append_assoc,List.singleton_append]
  · exact admits_of_closed rfl rfl (by simp [endsInVariable])

theorem bin {op : Operator} (hl : l.Reads bound ts (⟨op.token,p⟩ :: us) env x env')
    (hb : bound < op.priority) (hr : r.Reads op.rightBound us rest env' y env'')
    (hs : Stops op.rightBound rest) :
    (Phrase.bin op p l r).Reads bound ts rest env (op.apply x y) env'' := by
  refine ⟨?_,?_,?_,⟨?_,hr.admits.sign⟩,?_⟩
  · rw [hl.lexemes,hr.lexemes,Phrase.lexemes,List.append_assoc,List.cons_append]
  · have left := hl.admits.operator op op.ofToken?_token
    have right := standsRight_iff.mpr hr.tight
    simp only [Phrase.wellBracketed,left,right,hl.wellBracketed,hr.wellBracketed]
    rfl
  · intro o ho
    cases ho
    exact hb
  · intro o ho
    have hend := (standsLeft_iff.mp (hr.admits.operator o ho)).1
    refine standsLeft_iff.mpr ⟨hend,?_⟩
    intro o' ho'
    cases ho'
    exact hs o ho
  · simp only [tree,Tree.meaning,hl.meaning,hr.meaning,Meaning.andThen]

end Phrase.Reads

/-- What a part with a value has read. A climb continues the phrase that was read before it. -/
def Part.Read (part : Part) (x : Float) (rest : List Lexeme) (env' : Environment) : Prop :=
  match part with
  | operand ts env => ∃ w : Phrase, w.Reads 3 ts rest env x env'
  | chain bound ts env => ∃ w : Phrase, w.Reads bound ts rest env x env'
  | climb bound y ts env => ∀ (l : Phrase) us env₀, l.Reads bound us ts env₀ y env →
      ∃ w : Phrase, w.Reads bound us rest env₀ x env'

theorem Part.Gives.read {part : Part} {r : Run} {x : Float} {rest : List Lexeme}
    {env' : Environment} (h : part.Gives r) (hr : r = .value x rest env') :
    part.Read x rest env' := by
  induction h generalizing x rest env' with
  | missing env => cases hr
  | num y p ts env =>
    cases hr
    refine ⟨.num y p,rfl,rfl,Phrase.forall_root? rfl,?_,rfl⟩
    exact Phrase.Reads.admits_of_closed rfl rfl (by simp [Phrase.endsInVariable])
  | group p inner ih =>
    obtain ⟨q,hq⟩ := Run.close_eq_value hr
    obtain ⟨w,hw⟩ := ih hq
    exact ⟨.group p q w,hw.group⟩
  | function p hg argument ih =>
    obtain ⟨y,hy,rfl⟩ := Run.map_eq_value hr
    obtain ⟨w,hw⟩ := ih hy
    exact ⟨_,hw.call hg⟩
  | constant p ts env hc =>
    cases hr
    refine ⟨.const _ _ hc p,rfl,rfl,Phrase.forall_root? rfl,?_,rfl⟩
    exact Phrase.Reads.admits_of_closed rfl rfl (by simp [Phrase.endsInVariable])
  | assignment p q hn value ih =>
    obtain ⟨env₀,hv,rfl⟩ := Run.store_eq_value hr
    obtain ⟨w,hw⟩ := ih hv
    exact ⟨.assign ⟨_,hn⟩ p q w,hw.assign (value.stops hv) ⟨_,hn⟩⟩
  | lookup p env hn hts =>
    obtain ⟨hx,rfl,rfl⟩ := Run.read_eq_value hr
    refine ⟨.var ⟨_,hn⟩ p,rfl,rfl,Phrase.forall_root? rfl,?_,?_⟩
    · exact Phrase.Reads.admits_of_closed rfl rfl (fun _ => hts)
    · simp only [Phrase.tree,Tree.meaning,hx]
  | unexpected p ts env ht => cases hr
  | chainFault first ih => cases hr
  | chainValue first others ihf iho =>
    obtain ⟨w,hw⟩ := ihf rfl
    exact iho hr w _ _ hw.of_operand
  | climbEnd y env hs =>
    cases hr
    intro l us env₀ hl
    exact ⟨l,hl⟩
  | climbFault y p hb right ih => cases hr
  | climbValue p hb right others ihr iho =>
    intro l us env₀ hl
    obtain ⟨w,hw⟩ := ihr rfl
    exact iho hr _ us env₀ (hl.bin hb hw (right.stops rfl))

/-- A value is computed from a phrase at the front of the lexemes, with parentheses where the table
of priorities asks for them, and from nothing else; and every such phrase has its value. -/
theorem evaluateLexemes_eq_ok_iff (ts : List Lexeme) (env : Environment) (x : Float)
    (env' : Environment) :
    evaluateLexemes ts env = (.ok (some x),env') ↔
      ∃ (k : Nat) (t : Tree) (w : Phrase), 1 ≤ k ∧ k ≤ ts.length ∧
        w.tree = t ∧ w.wellBracketed = true ∧ w.lexemes = ts.take k ∧ w.Ends (ts.drop k) ∧
        t.meaning env = (.ok x,env') := by
  constructor
  · intro h
    have hne : ts ≠ [] := by
      intro hts
      subst hts
      cases h
    rw [evaluateLexemes_eq hne] at h
    have gives := (Part.chain 0 ts env).gives_run
    simp only [Part.run] at gives
    cases hr : chain 0 ts env with
    | fault f rest env₀ =>
      rw [hr] at h
      cases h
    | value y rest env₀ =>
      rw [hr] at h gives
      cases h
      obtain ⟨w,hw⟩ := gives.read rfl
      have stop := gives.stops rfl
      have hlen := List.length_pos_iff.mpr w.lexemes_ne_nil
      refine ⟨w.lexemes.length,w.tree,w,hlen,?_,rfl,hw.wellBracketed,?_,?_,hw.meaning⟩
      · rw [hw.lexemes,List.length_append]
        exact Nat.le_add_right _ _
      · rw [hw.lexemes,List.take_left]
      · rw [hw.lexemes,List.drop_left]
        exact ⟨stops_zero_iff.mp stop,hw.admits.sign⟩
  · intro h
    obtain ⟨k,t,w,_,_,rfl,hw,hlex,hends,hm⟩ := h
    have h := w.evaluateLexemes_lexemes hw hends env
    rw [hlex,List.take_append_drop,hm] at h
    exact h

end Reckoner
