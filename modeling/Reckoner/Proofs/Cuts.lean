import Reckoner.Proofs.Joints
import Reckoner.Proofs.Printing

namespace Reckoner

namespace Scan
variable {cs x y w : List Char} {t u : Token} {r : Reading}

theorem read?_of_spells (h : Spells t w) : read? w = some ⟨t,w,[]⟩ := by
  rcases h.cases_text with ⟨l,hl,rfl,rfl⟩ | ⟨hn,rfl⟩ | ⟨c,hc,rfl⟩
  · rw [read?,Literal.read?_text hl]
  · exact read?_name hn
  · exact read?_symbol hc

theorem token_eq_of_spells (ht : Spells t w) (hu : Spells u w) : t = u := by
  have same := (read?_of_spells ht).symm.trans (read?_of_spells hu)
  exact congrArg Reading.token (Option.some.inj same)

/-- What is read stays the same when there is less behind it. -/
theorem read?_shortened (h : read? cs = some r) (hr : r.rest = x ++ y) :
    read? (r.text ++ x) = some ⟨r.token,r.text,x⟩ := by
  have longest := longest_of_read? h
  obtain ⟨⟨t,w,rest⟩,hread,hlen⟩ := read?_append longest.spells x
  obtain ⟨happ,_⟩ := text_append_of_read? hread
  have spelled := spells_of_read? hread
  dsimp only at happ hlen spelled
  have hprefix : w <+: r.text ++ r.rest := by
    refine ⟨rest ++ y,?_⟩
    rw [← List.append_assoc,happ,List.append_assoc,hr]
  have hle := longest.longest t w spelled hprefix
  obtain ⟨rfl,rfl⟩ := List.append_inj happ (Nat.le_antisymm hle hlen)
  rw [hread,token_eq_of_spells spelled longest.spells]

theorem read?_none_shortened (h : read? (x ++ y) = none) : read? x = none := by
  rw [read?_eq_none_iff] at h ⊢
  intro t w hw hp
  exact h t w hw (hp.trans (List.prefix_append x y))

theorem isStray_shortened {c : Char} (h : isStray (c :: (x ++ y)) = true) :
    isStray (c :: x) = true := by
  simp only [isStray,Bool.and_eq_true,Option.isNone_iff_eq_none] at h ⊢
  exact ⟨h.1,read?_none_shortened h.2⟩

/-- Where a text begins with a stray character the run is not empty. -/
theorem exists_cons_strayRun (h : isStray cs = true) : ∃ c ds, strayRun cs = c :: ds := by
  cases cs with
  | nil => cases h
  | cons c cs => exact ⟨c,strayRun cs,by rw [strayRun,if_pos h]⟩

/-- A run of stray characters is the same with less behind it, if that does not make what follows
the run stray. -/
theorem strayRun_shortened (h : afterStray cs = x ++ y) (hx : isStray x = false) :
    strayRun (strayRun cs ++ x) = strayRun cs ∧ afterStray (strayRun cs ++ x) = x := by
  have nothing : strayRun x = [] ∧ afterStray x = x := by
    cases x with
    | nil => exact ⟨rfl,rfl⟩
    | cons c cs => simp [strayRun,afterStray,hx]
  induction cs with
  | nil => exact nothing
  | cons d ds ih =>
    by_cases hs : isStray (d :: ds) = true
    · simp only [strayRun,afterStray,hs,if_true] at h ⊢
      have hd : isStray (d :: (strayRun ds ++ x)) = true := by
        rw [← strayRun_append_afterStray ds,h,← List.append_assoc] at hs
        exact isStray_shortened hs
      simp only [List.cons_append,strayRun,afterStray,hd,if_true]
      exact ⟨congrArg (List.cons d) (ih h).1,(ih h).2⟩
    · simp only [strayRun,hs]
      exact nothing

end Scan

namespace Piece
variable {cs u v x y : List Char} {p : Piece} {ps qs : List Piece} {r : Scan.Reading}

theorem scan_of_read (h : Scan.read? cs = some r) :
    scan cs = word r.token r.text :: scan r.rest := by
  cases cs with
  | nil => cases h
  | cons c cs =>
    cases hb : Scan.isBlank c with
    | true =>
      rw [Scan.read?_of_blank hb] at h
      cases h
    | false => exact scan_word hb h

theorem scan_of_stray (h : Scan.isStray cs = true) :
    scan cs = word (.unknown (String.ofList (Scan.strayRun cs))) (Scan.strayRun cs) ::
      scan (Scan.afterStray cs) := by
  cases cs with
  | nil => cases h
  | cons c cs =>
    obtain ⟨hb,hu⟩ := Scan.isStray_cons.mp h
    have hr := Scan.read?_eq_none_iff.mpr hu
    obtain ⟨hrun,hafter⟩ := Scan.strayRun_cons hb hr
    rw [hrun,hafter,scan_stray hb hr]

/-- The first piece is a blank, or the token that is read, or a run of stray characters; and the
other pieces are those of the text behind it. -/
theorem scan_cases (h : scan cs = p :: ps) :
    (∃ c rest, Scan.isBlank c = true ∧ cs = c :: rest ∧ p = blank c ∧ ps = scan rest) ∨
    (∃ r, Scan.read? cs = some r ∧ p = word r.token r.text ∧ ps = scan r.rest) ∨
    (Scan.isStray cs = true ∧
      p = word (.unknown (String.ofList (Scan.strayRun cs))) (Scan.strayRun cs) ∧
      ps = scan (Scan.afterStray cs)) := by
  cases cs with
  | nil =>
    rw [scan] at h
    cases h
  | cons c cs =>
    cases hb : Scan.isBlank c with
    | true =>
      rw [scan_blank hb] at h
      cases h
      exact .inl ⟨c,cs,hb,rfl,rfl,rfl⟩
    | false =>
      cases hr : Scan.read? (c :: cs) with
      | some r =>
        rw [scan_of_read hr] at h
        cases h
        exact .inr (.inl ⟨r,rfl,rfl,rfl⟩)
      | none =>
        have hs : Scan.isStray (c :: cs) = true :=
          Scan.isStray_cons.mpr ⟨hb,Scan.read?_eq_none_iff.mp hr⟩
        rw [scan_of_stray hs] at h
        cases h
        exact .inr (.inr ⟨hs,rfl,rfl⟩)

/-- A text begins with a stray character where its first piece is unknown. -/
theorem isStray_iff :
    Scan.isStray cs = true ↔ ∃ s w rest, scan cs = word (.unknown s) w :: rest := by
  constructor
  · intro h
    exact ⟨_,_,_,scan_of_stray h⟩
  · rintro ⟨s,w,rest,h⟩
    rcases scan_cases h with ⟨c,_,_,_,hp,_⟩ | ⟨r,hr,hp,_⟩ | ⟨hs,_⟩
    · cases hp
    · have ht := (word.inj hp).1
      exact absurd ht.symm ((Scan.spells_of_read? hr).ne_unknown s)
    · exact hs

theorem scan_tail (h : scan cs = p :: ps) : scan (ps.flatMap text) = ps := by
  rcases scan_cases h with ⟨c,rest,_,_,_,rfl⟩ | ⟨r,_,_,rfl⟩ | ⟨_,_,rfl⟩
  · rw [flatMap_text_scan]
  · rw [flatMap_text_scan]
  · rw [flatMap_text_scan]

theorem text_of_scan (h : ps ++ qs = scan cs) : cs = ps.flatMap text ++ qs.flatMap text := by
  rw [← List.flatMap_append,h,flatMap_text_scan]

/-- The first piece is the same with fewer pieces behind it. -/
theorem scan_shortened (h : scan cs = p :: (ps ++ qs)) (hps : scan (ps.flatMap text) = ps) :
    scan (p.text ++ ps.flatMap text) = p :: ps := by
  rcases scan_cases h with ⟨c,rest,hb,_,rfl,_⟩ | ⟨r,hr,rfl,hrest⟩ | ⟨hs,rfl,hrest⟩
  · rw [text,List.singleton_append,scan_blank hb,hps]
  · have read := Scan.read?_shortened hr (text_of_scan hrest)
    rw [text,scan_of_read read,hps]
  · have hafter := text_of_scan hrest
    have ends : Scan.isStray (ps.flatMap text) = false := by
      rw [Bool.eq_false_iff]
      intro hstray
      obtain ⟨s,w,later,hw⟩ := isStray_iff.mp hstray
      rw [hps] at hw
      rw [hw,List.cons_append] at hrest
      have goes := isStray_iff.mpr ⟨s,w,_,hrest.symm⟩
      rw [Scan.not_isStray_of_endsRun (Scan.endsRun_afterStray cs)] at goes
      cases goes
    obtain ⟨hrun,hbehind⟩ := Scan.strayRun_shortened hafter ends
    have begins : Scan.isStray (Scan.strayRun cs ++ ps.flatMap text) = true := by
      obtain ⟨c,ds,hc⟩ := Scan.exists_cons_strayRun hs
      rw [← Scan.strayRun_append_afterStray cs,hafter,← List.append_assoc,hc,List.cons_append] at hs
      rw [hc,List.cons_append]
      exact Scan.isStray_shortened hs
    rw [text,scan_of_stray begins,hrun,hbehind,hps]

/-- Between two pieces a text may be cut. -/
theorem scan_cut (h : scan cs = ps ++ qs) :
    scan (ps.flatMap text) = ps ∧ scan (qs.flatMap text) = qs := by
  induction ps generalizing cs with
  | nil =>
    rw [List.nil_append] at h
    exact ⟨by rw [List.flatMap_nil,scan],by rw [← h,flatMap_text_scan]⟩
  | cons p ps ih =>
    obtain ⟨front,back⟩ := ih (scan_tail h)
    exact ⟨scan_shortened h front,back⟩

theorem read?_of_scan {t : Token} {w rest : List Char} (h : scan (w ++ rest) = word t w :: ps)
    (ht : ∀ s, t ≠ .unknown s) : Scan.read? (w ++ rest) = some ⟨t,w,rest⟩ := by
  rcases scan_cases h with ⟨c,_,_,_,hp,_⟩ | ⟨⟨t',w',rest'⟩,hr,hp,_⟩ | ⟨_,hp,_⟩
  · cases hp
  · cases hp
    have behind := List.append_cancel_left (Scan.text_append_of_read? hr).1
    dsimp only at behind
    rw [hr,behind]
  · exact absurd (word.inj hp).1 (ht _)

theorem append_inj_of_byteCount (h : u ++ v = x ++ y) (hb : byteCount u = byteCount x) :
    u = x ∧ v = y := by
  have nothing : ∀ cs, byteCount cs = 0 → cs = [] := by
    intro cs hcs
    by_contra hne
    exact absurd hcs (byteCount_pos hne).ne'
  rcases List.append_eq_append_iff.mp h with ⟨cs,rfl,rfl⟩ | ⟨cs,rfl,rfl⟩
  · rw [byteCount_append] at hb
    obtain rfl := nothing cs (by omega)
    exact ⟨(List.append_nil u).symm,rfl⟩
  · rw [byteCount_append] at hb
    obtain rfl := nothing cs (by omega)
    exact ⟨List.append_nil x,rfl⟩

theorem joint_of_scan (h : scan (u ++ v) = ps ++ qs)
    (hb : byteCount (ps.flatMap text) = byteCount u) : Joint u v := by
  obtain ⟨rfl,rfl⟩ := append_inj_of_byteCount (text_of_scan h.symm) hb.symm
  obtain ⟨front,back⟩ := scan_cut h
  rw [Joint,h,front,back]

/-- Where the piece of a span stands among the pieces. -/
theorem exists_pieces {position : Nat} {before behind : List Span} {s : Span}
    (h : spansFrom position ps = before ++ s :: behind) :
    ∃ qs rs, ps = qs ++ word s.token s.text :: rs ∧ spansFrom position qs = before ∧
      s.start = position + byteCount (qs.flatMap text) := by
  induction ps generalizing position before with
  | nil => simp [spansFrom] at h
  | cons p ps ih =>
    cases p with
    | blank c =>
      obtain ⟨qs,rs,rfl,hbefore,hstart⟩ := ih h
      refine ⟨blank c :: qs,rs,rfl,hbefore,?_⟩
      rw [hstart,List.flatMap_cons,byteCount_append,Nat.add_assoc]
      rfl
    | word t w =>
      cases before with
      | nil =>
        obtain ⟨rfl,_⟩ := List.cons.inj h
        exact ⟨[],ps,rfl,rfl,rfl⟩
      | cons a before =>
        obtain ⟨rfl,hlater⟩ := List.cons.inj h
        obtain ⟨qs,rs,rfl,hbefore,hstart⟩ := ih hlater
        refine ⟨word t w :: qs,rs,rfl,by rw [spansFrom,hbefore],?_⟩
        rw [hstart,List.flatMap_cons,byteCount_append,Nat.add_assoc]
        rfl

end Piece

end Reckoner
