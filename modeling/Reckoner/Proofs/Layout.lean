import Reckoner.Proofs.Joints
import Reckoner.Proofs.Lines
import Reckoner.Session

namespace Reckoner

theorem evaluate_append_blanks {bs : List Char} (h : ∀ b ∈ bs, Scan.isBlank b = true)
    (cs : List Char) (env : Environment) :
    evaluate (String.ofList (cs ++ bs)) env = evaluate (String.ofList cs) env := by
  have cut : Piece.Joint cs bs := by
    refine scan_append_blank ?_ cs
    rintro b ds rfl
    exact h b List.mem_cons_self
  have behind : ∀ p, Piece.lexemesFrom p (Piece.scan bs) = [] := by
    intro p
    have moved := Piece.lexemesFrom_blanks h p []
    rwa [List.append_nil,Piece.scan] at moved
  have same : lexemes (String.ofList (cs ++ bs)) = lexemes (String.ofList cs) := by
    rw [lexemes,lexemes,rawLexemes,rawLexemes,String.toList_ofList,String.toList_ofList,cut,
      Piece.lexemesFrom_append,behind,List.append_nil]
  rw [evaluate,same,← evaluate]

theorem evaluate_nil (env : Environment) : evaluate (String.ofList []) env = (.ok none,env) := by
  simp [evaluate,lexemes,rawLexemes,Piece.scan,Piece.lexemesFrom,Sign.resolve,Sign.resolveFrom,
    evaluateLexemes]

namespace Text
variable {line bs : List Char}

/-- A line without the blanks at its end. -/
def bare (line : List Char) : List Char := (line.reverse.dropWhile Scan.isBlank).reverse

theorem exists_bare (line : List Char) :
    ∃ bs, line = bare line ++ bs ∧ ∀ b ∈ bs, Scan.isBlank b = true := by
  refine ⟨(line.reverse.takeWhile Scan.isBlank).reverse,?_,?_⟩
  · rw [bare,← List.reverse_append,List.takeWhile_append_dropWhile,List.reverse_reverse]
  · intro b hb
    exact List.all_eq_true.mp List.all_takeWhile b (List.mem_reverse.mp hb)

theorem bare_append (h : ∀ b ∈ bs, Scan.isBlank b = true) (line : List Char) :
    bare (line ++ bs) = bare line := by
  have back : ∀ b ∈ bs.reverse, Scan.isBlank b = true := fun b hb => h b (List.mem_reverse.mp hb)
  rw [bare,bare,List.reverse_append,List.dropWhile_append_of_pos back]

theorem bare_dropLineEnd (line : List Char) : bare (dropLineEnd line) = bare line := by
  obtain ⟨ending,he,hending⟩ := exists_dropLineEnd line
  have blanks : ∀ c ∈ ending, Scan.isBlank c = true := by
    rcases hending with ⟨rfl,_⟩ | rfl | rfl <;> exact List.all_eq_true.mp rfl
  have kept := bare_append blanks (dropLineEnd line)
  rw [← he] at kept
  exact kept.symm

theorem evaluate_bare (line : List Char) (env : Environment) :
    evaluate (String.ofList line) env = evaluate (String.ofList (bare line)) env := by
  obtain ⟨bs,he,hbs⟩ := exists_bare line
  have same := evaluate_append_blanks hbs (bare line) env
  rwa [← he] at same

/-- Without line feeds a text is one line; otherwise the first line feed ends its first line. -/
@[elab_as_elim]
theorem lines_induction {motive : List Char → Prop} (last : ∀ line, '\n' ∉ line → motive line)
    (line : ∀ line rest, '\n' ∉ line → motive rest → motive (line ++ '\n' :: rest))
    (cs : List Char) : motive cs := by
  induction hn : cs.length using Nat.strongRecOn generalizing cs with
  | ind n ih =>
    by_cases hm : '\n' ∈ cs
    · obtain ⟨front,rest,rfl,hfront⟩ := List.eq_append_cons_of_mem hm
      refine line front rest hfront (ih rest.length ?_ rest rfl)
      rw [← hn,List.length_append,List.length_cons]
      omega
    · exact last cs hm

/-- The lines of a text that hold anything but blanks, without the blanks behind them. -/
def content (cs : List Char) : List (List Char) := ((cutLines cs).map bare).filter (· ≠ [])

theorem content_of_not_mem (h : '\n' ∉ line) : content line = [bare line].filter (· ≠ []) := by
  by_cases hne : line = []
  · subst hne
    rfl
  · rw [content,cutLines_of_not_mem hne h,List.map_singleton]

theorem content_line (h : '\n' ∉ line) (rest : List Char) :
    content (line ++ '\n' :: rest) = content line ++ content rest := by
  have blank : ∀ b ∈ ['\n'], Scan.isBlank b = true := List.all_eq_true.mp rfl
  rw [content_of_not_mem h,content,cutLines_append h,List.map_cons,bare_append blank,
    ← List.singleton_append,List.filter_append,← content]

theorem content_append_feed (front back : List Char) :
    content (front ++ '\n' :: back) = content front ++ content back := by
  induction front using lines_induction with
  | last line h => exact content_line h back
  | line line rest h ih =>
    rw [List.append_assoc,List.cons_append,content_line h,ih,content_line h,List.append_assoc]

/-- Characters that can stand at the end of a line and are skipped there. -/
def Margin (bs : List Char) : Prop := ∀ b ∈ bs, b ∈ [' ','\t','\r','\x0c']

instance (bs : List Char) : Decidable (Margin bs) := List.decidableBAll _ _

theorem Margin.isBlank (h : Margin bs) : ∀ b ∈ bs, Scan.isBlank b = true := by
  intro b hb
  have blanks : ∀ c ∈ [' ','\t','\r','\x0c'], Scan.isBlank c = true := List.all_eq_true.mp rfl
  exact blanks b (h b hb)

theorem Margin.not_mem (h : Margin bs) : '\n' ∉ bs := by
  intro hm
  exact absurd (h _ hm) (by decide)

theorem content_append_margin (h : Margin bs) (cs : List Char) :
    content (cs ++ bs) = content cs := by
  induction cs using lines_induction with
  | last line hline =>
    have single : '\n' ∉ line ++ bs := by simp [hline,h.not_mem]
    rw [content_of_not_mem single,content_of_not_mem hline,bare_append h.isBlank]
  | line line rest hline ih =>
    rw [List.append_assoc,List.cons_append,content_line hline,content_line hline,ih]

theorem content_margin (h : Margin bs) : content bs = [] := content_append_margin h []

/-- The same text in another layout. In one step a line is ended in the other way, gets blanks in
front of its end, or is put in with nothing but blanks; the end of the last line is written or left
out. Steps are taken in either direction, as many as there are. -/
inductive Relaid : List Char → List Char → Prop where
  | ended (front back : List Char) : Relaid (front ++ '\n' :: back) (front ++ '\r' :: '\n' :: back)
  | margin {bs : List Char} (hb : Margin bs) (front : List Char) {back : List Char}
      (hback : back = [] ∨ ['\n'] <+: back ∨ ['\r','\n'] <+: back) :
      Relaid (front ++ back) (front ++ bs ++ back)
  | firstLine {bs : List Char} (hb : Margin bs) (back : List Char) :
    Relaid back (bs ++ '\n' :: back)
  | line {bs : List Char} (hb : Margin bs) (front back : List Char) :
      Relaid (front ++ '\n' :: back) (front ++ '\n' :: (bs ++ '\n' :: back))
  | lastLine {bs : List Char} (hb : Margin bs) (front : List Char) :
    Relaid front (front ++ '\n' :: bs)
  | lastEnd (front : List Char) : Relaid front (front ++ ['\n'])
  | refl (cs : List Char) : Relaid cs cs
  | symm {cs ds : List Char} (h : Relaid cs ds) : Relaid ds cs
  | trans {cs ds es : List Char} (h : Relaid cs ds) (h' : Relaid ds es) : Relaid cs es

/-- The layout is not part of the content. -/
theorem Relaid.content_eq {cs ds : List Char} (h : Relaid cs ds) : content cs = content ds := by
  induction h with
  | ended front back =>
    have margin : Margin ['\r'] := by decide
    have turned : front ++ '\r' :: '\n' :: back = front ++ ['\r'] ++ '\n' :: back := by simp
    rw [turned,content_append_feed,content_append_feed,content_append_margin margin]
  | @margin bs hb front back hback =>
    rcases hback with rfl | ⟨rest,rfl⟩ | ⟨rest,rfl⟩
    · rw [List.append_nil,List.append_nil,content_append_margin hb]
    · rw [List.singleton_append,content_append_feed,content_append_feed,content_append_margin hb]
    · have margin : Margin ['\r'] := by decide
      have before (us : List Char) :
          us ++ (['\r','\n'] ++ rest) = us ++ ['\r'] ++ '\n' :: rest := by
        simp
      rw [before,before,content_append_feed,content_append_feed,content_append_margin margin,
        content_append_margin margin,content_append_margin hb]
  | firstLine hb back => rw [content_append_feed,content_margin hb,List.nil_append]
  | line hb front back =>
    rw [content_append_feed,content_append_feed,content_append_feed,content_margin hb,
      List.nil_append]
  | lastLine hb front => rw [content_append_feed,content_margin hb,List.append_nil]
  | lastEnd front =>
    have nothing : content [] = [] := rfl
    rw [content_append_feed,nothing,List.append_nil]
  | refl cs => rfl
  | symm h ih => exact ih.symm
  | trans h h' ih ih' => exact ih.trans ih'

end Text

namespace Script
open Text

/-- Of each line only what is bare counts, and a line with nothing in it does not. -/
theorem lastValue_bare (last : Option Float) (ls : List (List Char)) (env : Environment) :
    lastValue last (ls.map (fun l => String.ofList (dropLineEnd l))) env =
      lastValue last (((ls.map bare).filter (· ≠ [])).map String.ofList) env := by
  induction ls generalizing last env with
  | nil => rfl
  | cons l ls ih =>
    have same :
        evaluate (String.ofList (dropLineEnd l)) env = evaluate (String.ofList (bare l)) env := by
      rw [evaluate_bare,bare_dropLineEnd]
    rw [List.map_cons,lastValue,same]
    by_cases hb : bare l = []
    · rw [hb,evaluate_nil]
      simpa [hb] using ih last env
    · simp only [List.map_cons,List.filter_cons,hb,ne_eq,not_false_eq_true,decide_true,if_true,
        lastValue]
      cases he : evaluate (String.ofList (bare l)) env with
      | mk outcome env' =>
        cases outcome with
        | error f => rfl
        | ok x => exact ih _ _

theorem value_eq_content (source : String) :
    value source = lastValue none ((content source.toList).map String.ofList) .empty :=
  lastValue_bare none (cutLines source.toList) .empty

/-- In another layout a script has the same value, or the same fault in the same place of its
line. -/
theorem value_relaid {a b : String} (h : Relaid a.toList b.toList) : value a = value b := by
  rw [value_eq_content,value_eq_content,h.content_eq]

/-- A line of blanks within, all kinds of ends, and a fault that stays in its place. -/
theorem value_relaid_fault :
    let plain := "x = 2\n  x * )\n3"
    let other := "x = 2\t\r\n \n  x * )\n3\n"
    Relaid plain.toList other.toList ∧
    value plain = .error (.unexpectedToken .rparen 6) ∧
    value other = .error (.unexpectedToken .rparen 6) := by
  intro plain other
  have turned : Relaid "x = 2\n  x * )\n3".toList "x = 2\r\n  x * )\n3".toList :=
    .ended "x = 2".toList "  x * )\n3".toList
  have longer : Relaid "x = 2\r\n  x * )\n3".toList "x = 2\t\r\n  x * )\n3".toList :=
    @Relaid.margin ['\t'] (by decide) "x = 2".toList "\r\n  x * )\n3".toList
      (.inr (.inr (by decide)))
  have put : Relaid "x = 2\t\r\n  x * )\n3".toList "x = 2\t\r\n \n  x * )\n3".toList :=
    @Relaid.line [' '] (by decide) "x = 2\t\r".toList "  x * )\n3".toList
  have last : Relaid "x = 2\t\r\n \n  x * )\n3".toList "x = 2\t\r\n \n  x * )\n3\n".toList :=
    .lastEnd "x = 2\t\r\n \n  x * )\n3".toList
  have relaid : Relaid plain.toList other.toList := turned.trans (longer.trans (put.trans last))
  have fails : value plain = .error (.unexpectedToken .rparen 6) := by decide +kernel
  exact ⟨relaid,fails,(value_relaid relaid).symm.trans fails⟩

end Script

end Reckoner
