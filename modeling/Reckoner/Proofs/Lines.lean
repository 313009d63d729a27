import Reckoner.Proofs.Trimming
import Reckoner.Text

namespace Reckoner

namespace Text
variable {line : List Char} {lines : List (List Char)}

/-- Lines as they are read one by one. Each ends with its only line feed; the last may have none,
but it is not empty. -/
inductive Cut : List (List Char) → Prop where
  | nil : Cut []
  | last {line : List Char} (hne : line ≠ []) (h : '\n' ∉ line) : Cut [line]
  | line {line : List Char} {lines : List (List Char)} (h : '\n' ∉ line) (others : Cut lines) :
      Cut ((line ++ ['\n']) :: lines)

theorem Cut.consLine (c : Char) (h : Cut lines) : Cut (consLine c lines) := by
  unfold Text.consLine
  split
  · rename_i hc
    subst hc
    exact @Cut.line [] _ List.not_mem_nil h
  · rename_i hc
    cases h with
    | nil => exact .last (by simp) (by simpa using Ne.symm hc)
    | last hne h => exact .last (by simp) (by simpa using ⟨Ne.symm hc,h⟩)
    | @line line lines h others =>
      exact @Cut.line (c :: line) _ (by simpa using ⟨Ne.symm hc,h⟩) others

theorem cut_cutLines (cs : List Char) : Cut (cutLines cs) := by
  induction cs with
  | nil => exact .nil
  | cons c cs ih => exact ih.consLine c

theorem cutLines_of_not_mem (hne : line ≠ []) (h : '\n' ∉ line) : cutLines line = [line] := by
  induction line with
  | nil => exact absurd rfl hne
  | cons c cs ih =>
    rw [List.mem_cons,not_or] at h
    obtain ⟨hc,hcs⟩ := h
    rw [cutLines,List.foldr_cons,← cutLines]
    cases cs with
    | nil => exact if_neg (Ne.symm hc)
    | cons d ds => rw [ih (List.cons_ne_nil d ds) hcs,consLine,if_neg (Ne.symm hc)]

theorem cutLines_append (h : '\n' ∉ line) (rest : List Char) :
    cutLines (line ++ '\n' :: rest) = (line ++ ['\n']) :: cutLines rest := by
  induction line with
  | nil => rfl
  | cons c cs ih =>
    rw [List.mem_cons,not_or] at h
    obtain ⟨hc,hcs⟩ := h
    rw [List.cons_append,cutLines,List.foldr_cons,← cutLines,ih hcs,consLine,if_neg (Ne.symm hc)]
    rfl

theorem Cut.cutLines_flatten (h : Cut lines) : cutLines lines.flatten = lines := by
  induction h with
  | nil => rfl
  | last hne h => simpa using cutLines_of_not_mem hne h
  | @line line lines h others ih =>
    rw [List.flatten_cons,List.append_assoc,List.singleton_append,cutLines_append h,ih]

/-- What stands between lines that are taken out are lines again. -/
theorem Cut.splitOnP (h : Cut lines) (p : List Char → Bool) :
    ∀ piece ∈ lines.splitOnP p, Cut piece := by
  -- The line in front of the others is taken out, or it is the first of their first piece.
  induction h with
  | nil =>
    rintro piece hp
    rw [List.splitOnP_nil,List.mem_singleton] at hp
    exact hp ▸ .nil
  | last hne h =>
    intro piece hp
    rw [List.splitOnP_cons_eq_if_modifyHead,List.splitOnP_nil] at hp
    split at hp
    · simp only [List.mem_cons,List.not_mem_nil,or_false,or_self] at hp
      exact hp ▸ .nil
    · rw [List.modifyHead_cons,List.mem_singleton] at hp
      exact hp ▸ .last hne h
  | @line line lines h others ih =>
    intro piece hp
    rw [List.splitOnP_cons_eq_if_modifyHead] at hp
    split at hp
    · rcases List.mem_cons.mp hp with rfl | hp
      · exact .nil
      · exact ih piece hp
    · cases hs : lines.splitOnP p with
      | nil =>
        rw [hs] at hp
        cases hp
      | cons first pieces =>
        rw [hs] at hp ih
        rcases List.mem_cons.mp hp with rfl | hp
        · exact .line h (ih first List.mem_cons_self)
        · exact ih piece (List.mem_cons_of_mem first hp)

/-- What is dropped at the end of a line is its line feed and the carriage return before it. -/
theorem exists_dropLineEnd (line : List Char) : ∃ ending, line = dropLineEnd line ++ ending ∧
    (ending = [] ∧ line.getLast? ≠ some '\n' ∨ ending = ['\n'] ∨ ending = ['\r','\n']) := by
  have hline := List.reverse_reverse line
  unfold dropLineEnd
  split
  · rename_i cs he
    exact ⟨['\r','\n'],by simpa [he] using hline.symm,by simp⟩
  · rename_i cs _ he
    exact ⟨['\n'],by simpa [he] using hline.symm,by simp⟩
  · rename_i _ hother
    refine ⟨[],(List.append_nil line).symm,.inl ⟨rfl,?_⟩⟩
    intro hl
    rw [← List.head?_reverse,List.head?_eq_some_iff] at hl
    obtain ⟨cs,he⟩ := hl
    exact hother cs he

/-- The end of a line is trimmed off with the white space. -/
theorem trimChars_dropLineEnd (line : List Char) :
    trimChars (dropLineEnd line) = trimChars line := by
  obtain ⟨ending,he,hending⟩ := exists_dropLineEnd line
  have spaces : ∀ c ∈ ending, isSpace c = true := by
    rcases hending with ⟨rfl,_⟩ | rfl | rfl <;> exact List.all_eq_true.mp rfl
  have trimmed := trimChars_append spaces (dropLineEnd line)
  rw [← he] at trimmed
  exact trimmed.symm

theorem Cut.not_mem_dropLineEnd (h : Cut lines) : ∀ line ∈ lines, '\n' ∉ dropLineEnd line := by
  induction h with
  | nil => simp
  | @last line hne h =>
    intro l hl
    rw [List.mem_singleton.mp hl]
    obtain ⟨ending,he,_⟩ := exists_dropLineEnd line
    rw [he] at h
    exact fun hm => h (List.mem_append_left ending hm)
  | @line line lines h others ih =>
    intro l hl
    rcases List.mem_cons.mp hl with rfl | hl
    · obtain ⟨ending,he,hending⟩ := exists_dropLineEnd (line ++ ['\n'])
      generalize dropLineEnd (line ++ ['\n']) = front at he ⊢
      rcases hending with ⟨_,hlast⟩ | rfl | rfl
      · simp at hlast
      · have hline : line = front := List.append_cancel_right he
        rwa [← hline]
      · have hline : line = front ++ ['\r'] := List.append_cancel_right (by simpa using he)
        rw [hline] at h
        exact fun hm => h (List.mem_append_left _ hm)
    · exact ih l hl

theorem not_mem_of_mem_lines {s l : String} (h : l ∈ Text.lines s) : '\n' ∉ l.toList := by
  obtain ⟨line,hl,rfl⟩ := List.mem_map.mp h
  rw [String.toList_ofList]
  exact (cut_cutLines s.toList).not_mem_dropLineEnd line hl

theorem dropLineEnd_append (h : line.getLast? ≠ some '\r') :
    dropLineEnd (line ++ ['\n']) = line := by
  obtain ⟨ending,he,⟨_,hlast⟩ | rfl | rfl⟩ := exists_dropLineEnd (line ++ ['\n'])
  · simp at hlast
  · exact (List.append_cancel_right he).symm
  · have hline : line = dropLineEnd (line ++ ['\n']) ++ ['\r'] :=
      List.append_cancel_right (by simpa using he)
    exact absurd (by rw [hline]; simp) h

/-- Lines that are written one by one are read back. -/
theorem lines_join {ls : List String}
    (h : ∀ l ∈ ls, '\n' ∉ l.toList ∧ l.toList.getLast? ≠ some '\r') :
    Text.lines (String.join (ls.map (· ++ "\n"))) = ls := by
  induction ls with
  | nil => rfl
  | cons l ls ih =>
    obtain ⟨hfeed,hlast⟩ := h l List.mem_cons_self
    have others := ih (fun m hm => h m (List.mem_cons_of_mem l hm))
    rw [Text.lines,String.toList_join] at others ⊢
    have feed : "\n".toList = ['\n'] := rfl
    rw [List.map_cons,List.flatMap_cons,String.toList_append,feed,List.append_assoc,
      List.singleton_append,cutLines_append hfeed,List.map_cons,others,dropLineEnd_append hlast,
      String.ofList_toList]

end Text

end Reckoner
