import Reckoner.Proofs.Seams
import Reckoner.Text

namespace Reckoner

namespace Scan

/-- In the order of the characters a part of a name is between 0 and z. -/
theorem toNat_of_isNamePart {c : Char} (h : isNamePart c = true) :
    48 ≤ c.toNat ∧ c.toNat ≤ 122 := by
  rw [isNamePart,Char.isAlphanum,Bool.or_eq_true,Bool.or_eq_true,beq_iff_eq] at h
  rcases h with (h | h) | rfl
  · have letter : (decide ('A'.val ≤ c.val ∧ c.val ≤ 'Z'.val) ||
        (decide ('a'.val ≤ c.val) && decide (c.val ≤ 'z'.val))) = true := h
    simp only [Bool.or_eq_true,Bool.and_eq_true,decide_eq_true_eq,UInt32.le_iff_toNat_le] at letter
    have bounds : 'A'.val.toNat = 65 ∧ 'Z'.val.toNat = 90 ∧ 'a'.val.toNat = 97 ∧
        'z'.val.toNat = 122 := by decide
    have hc : c.toNat = c.val.toNat := rfl
    omega
  · have := Char.isDigit_iff_toNat.mp h
    have bounds : '0'.toNat = 48 ∧ '9'.toNat = 57 := by decide
    omega
  · decide

end Scan

namespace Text
variable {c : Char} {cs : List Char}

theorem isSpace_iff : isSpace c = true ↔
    (9 ≤ c.toNat ∧ c.toNat ≤ 13) ∨ c.toNat = 0x20 ∨ c.toNat = 0x85 ∨ c.toNat = 0xa0 ∨
      c.toNat = 0x1680 ∨ (0x2000 ≤ c.toNat ∧ c.toNat ≤ 0x200a) ∨ c.toNat = 0x2028 ∨
      c.toNat = 0x2029 ∨ c.toNat = 0x202f ∨ c.toNat = 0x205f ∨ c.toNat = 0x3000 := by
  simp only [isSpace,Bool.or_eq_true,Bool.and_eq_true,decide_eq_true_eq,or_assoc]

theorem isSpace_of_isBlank (h : Scan.isBlank c = true) : isSpace c = true := by
  unfold Scan.isBlank at h
  split at h
  · decide
  · decide
  · decide
  · decide
  · decide
  · cases h

/-- White space is no part of a name, no digit, no point and no symbol. -/
theorem not_isNamePart_of_isSpace (h : isSpace c = true) : Scan.isNamePart c = false := by
  rw [Bool.eq_false_iff]
  intro hn
  have := Scan.toNat_of_isNamePart hn
  have := isSpace_iff.mp h
  omega

theorem ne_of_isSpace {d : Char} (h : isSpace c = true) (hd : isSpace d = false) : c ≠ d := by
  rintro rfl
  rw [h] at hd
  cases hd

theorem symbol?_of_isSpace (h : isSpace c = true) : Token.symbol? c = none := by
  cases hs : Token.symbol? c with
  | none => rfl
  | some t =>
    have other : isSpace c = false := by
      unfold Token.symbol? at hs
      split at hs <;> first | rfl | cases hs
    rw [h] at other
    cases other

theorem read?_of_isSpace (h : isSpace c = true) (cs : List Char) : Scan.read? (c :: cs) = none := by
  have hpart := not_isNamePart_of_isSpace h
  simp only [Scan.isNamePart,Char.isAlphanum,Bool.or_eq_false_iff] at hpart
  rw [Scan.word?_of_literal (Literal.read?_of_other hpart.1.2 (ne_of_isSpace h rfl)
    (ne_of_isSpace h rfl) cs),Scan.word?,Scan.isNameStart,hpart.1.1,symbol?_of_isSpace h]
  rfl

/-- No token goes on into white space. -/
theorem breaks_of_spaces (h : ∀ c ∈ cs, isSpace c = true) : Breaks cs := by
  cases cs with
  | nil => exact breaks_nil
  | cons c cs =>
    have hc := h c List.mem_cons_self
    exact breaks_cons (not_isNamePart_of_isSpace hc) (ne_of_isSpace hc rfl) cs

def indent (cs : List Char) : List Char := cs.takeWhile isSpace

/-- A text is what is left when it is trimmed, between white space. -/
theorem exists_trimChars (cs : List Char) :
    ∃ back, cs = indent cs ++ (trimChars cs ++ back) ∧ (∀ c ∈ back, isSpace c = true) ∧
      (trimChars cs = [] → back = []) ∧ ∀ c ds, trimChars cs = c :: ds → isSpace c = false := by
  have hcs : indent cs ++ cs.dropWhile isSpace = cs := List.takeWhile_append_dropWhile
  have hback := List.takeWhile_append_dropWhile (p := isSpace) (l := (cs.dropWhile isSpace).reverse)
  have hdrop : trimChars cs ++ ((cs.dropWhile isSpace).reverse.takeWhile isSpace).reverse =
      cs.dropWhile isSpace := by
    rw [trimChars,← List.reverse_append,hback,List.reverse_reverse]
  have spaces : ∀ c ∈ ((cs.dropWhile isSpace).reverse.takeWhile isSpace).reverse,
      isSpace c = true := by
    intro c hc
    exact List.all_eq_true.mp List.all_takeWhile c (List.mem_reverse.mp hc)
  have first : ∀ c ds, cs.dropWhile isSpace = c :: ds → isSpace c = false := by
    intro c ds he
    have hhead := List.head?_dropWhile_not isSpace cs
    simpa [he] using hhead
  refine ⟨_,?_,spaces,?_,?_⟩
  · rw [hdrop,hcs]
  · intro hnil
    rw [hnil,List.nil_append] at hdrop
    cases hd : cs.dropWhile isSpace with
    | nil => rfl
    | cons c ds =>
      have hc : isSpace c = true := by
        apply spaces
        rw [hdrop,hd]
        exact List.mem_cons_self
      rw [first c ds hd] at hc
      cases hc
  · intro c ds he
    rw [he,List.cons_append] at hdrop
    exact first c _ hdrop.symm

theorem not_mem_trim {s : String} (h : c ∉ s.toList) : c ∉ (trim s).toList := by
  obtain ⟨back,hs,_⟩ := exists_trimChars s.toList
  rw [trim,String.toList_ofList]
  intro hm
  rw [hs] at h
  exact h (List.mem_append_right _ (List.mem_append_left back hm))

/-- White space behind a text is trimmed off. -/
theorem trimChars_append {ws : List Char} (h : ∀ c ∈ ws, isSpace c = true) (cs : List Char) :
    trimChars (cs ++ ws) = trimChars cs := by
  have hws : (ws ++ []).dropWhile isSpace = [] := List.dropWhile_append_of_pos h
  rw [List.append_nil] at hws
  rw [trimChars,trimChars,List.dropWhile_append]
  split
  · rename_i he
    rw [List.isEmpty_iff.mp he,hws]
  · have hrev : ∀ c ∈ ws.reverse, isSpace c = true := fun c hc => h c (List.mem_reverse.mp hc)
    rw [List.reverse_append,List.dropWhile_append_of_pos hrev]

end Text

end Reckoner
