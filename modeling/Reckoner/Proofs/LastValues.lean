import Reckoner.Proofs.Margins
import Reckoner.Proofs.Sessions

namespace Reckoner

namespace Number

theorem not_isSpace_of_isDigit {c : Char} (h : c.isDigit = true) : Text.isSpace c = false := by
  rw [Bool.eq_false_iff]
  intro hs
  have hpart := Text.not_isNamePart_of_isSpace hs
  simp [Scan.isNamePart,Char.isAlphanum,h] at hpart

theorem not_isSpace_of_mem_decimal {d : Decimal} {c : Char} (h : c ∈ d.text) :
    Text.isSpace c = false := by
  unfold Decimal.text at h
  split at h
  · exact not_isSpace_of_isDigit (Decimal.isDigit_of_mem_whole h)
  · rcases List.mem_append.mp h with h | h
    · exact not_isSpace_of_isDigit (Decimal.isDigit_of_mem_whole h)
    · rcases List.mem_cons.mp h with rfl | h
      · rfl
      · exact not_isSpace_of_isDigit (Decimal.isDigit_of_mem_fraction h)

theorem not_isSpace_of_mem_magnitudeText {bits : Nat} {c : Char} (h : c ∈ magnitudeText bits) :
    Text.isSpace c = false := by
  unfold magnitudeText at h
  split at h
  · have letters : ['i','n','f'].all (fun c => !Text.isSpace c) = true := by decide
    simpa using List.all_eq_true.mp letters c h
  · exact not_isSpace_of_mem_decimal h

theorem not_isSpace_of_mem_text {x : Float} {c : Char} (h : c ∈ (text x).toList) :
    Text.isSpace c = false := by
  unfold text at h
  split at h
  · have letters : "NaN".toList.all (fun c => !Text.isSpace c) = true := by decide
    simpa using List.all_eq_true.mp letters c h
  · rw [String.toList_ofList] at h
    split at h
    · rcases List.mem_cons.mp h with rfl | h
      · rfl
      · exact not_isSpace_of_mem_magnitudeText h
    · exact not_isSpace_of_mem_magnitudeText h

end Number

namespace Session
variable {line : String} {env : Environment}

/-- The answer to an expression that has a value. -/
def row (expression : String) (x : Float) : String := expression ++ " => " ++ Number.text x

theorem row_is_line {expression : String} (h : '\n' ∉ expression.toList) (x : Float) :
    '\n' ∉ (row expression x).toList ∧ (row expression x).toList.getLast? ≠ some '\r' := by
  have arrow : " => ".toList = [' ','=','>',' '] := rfl
  have hrow : (row expression x).toList =
      expression.toList ++ [' ','=','>',' '] ++ (Number.text x).toList := by
    rw [row,String.toList_append,String.toList_append,arrow]
  rw [hrow]
  constructor
  · intro hm
    rcases List.mem_append.mp hm with hm | hm
    · rcases List.mem_append.mp hm with hm | hm
      · exact h hm
      · simp at hm
    · cases Number.not_isSpace_of_mem_text hm
  · intro hlast
    rw [List.getLast?_append,Option.or_eq_some_iff] at hlast
    rcases hlast with hlast | ⟨_,hlast⟩
    · cases Number.not_isSpace_of_mem_text (List.mem_of_getLast? hlast)
    · simp at hlast

/-- What a session does with a line, which it trims, beside what the line is worth in a script,
which does not trim it. -/
inductive Answered (line : String) : Outcome × Environment → Transcript × Environment → Prop where
  | blank (env : Environment) : Answered line (.ok none,env) (.empty,env)
  | value (x : Float) (env : Environment) :
      Answered line (.ok (some x),env) (⟨row (Text.trim line) x ++ "\n",""⟩,env)
  | fault (f : Fault) (env env' : Environment) {message : String} (hne : message ≠ "") :
      Answered line (.error f,env) (⟨"",message⟩,env')

/-- A line with nothing but blanks in front is answered with the value it has, or with a fault. -/
theorem answered_of_plainIndent (h : PlainIndent line) (env : Environment) :
    Answered line (evaluate line env) (evaluateLine line env) := by
  have halike := h.alike env
  rw [evaluateLine]
  generalize evaluate line env = a at halike ⊢
  generalize evaluate (Text.trim line) env = b at halike
  cases halike with
  | value x env' =>
    cases x with
    | none => exact .blank env'
    | some x => exact .value x env'
  | fault f f' env' env'' => exact .fault f env' env'' (by simp)

/-- Without faults the script is worth what is answered last. -/
theorem lastValue_of_quiet {lines : List String} (last : Option Float)
    (hplain : ∀ line ∈ lines, PlainIndent line) (herr : (run evaluateLine lines env).1.err = "") :
    ∃ rows : List (String × Float),
      (run evaluateLine lines env).1.out = String.join (rows.map (fun r => row r.1 r.2 ++ "\n")) ∧
      (∀ r ∈ rows, ∃ line ∈ lines, r.1 = Text.trim line) ∧
      Script.lastValue last lines env = .ok ((rows.getLast?.map Prod.snd).or last) := by
  induction lines generalizing env last with
  | nil => exact ⟨[],rfl,by simp,rfl⟩
  | cons line lines ih =>
    have others : ∀ l ∈ lines, PlainIndent l := fun l hl => hplain l (List.mem_cons_of_mem line hl)
    have answered := answered_of_plainIndent (hplain line List.mem_cons_self) env
    rw [run_cons] at herr
    rw [run_cons,Script.lastValue]
    generalize evaluate line env = a at answered ⊢
    generalize evaluateLine line env = b at answered herr ⊢
    cases answered with
    | blank env' =>
      rw [Transcript.empty_append] at herr ⊢
      obtain ⟨rows,hout,htrim,hlast⟩ := ih (Option.or none last) others herr
      refine ⟨rows,hout,?_,hlast⟩
      intro r hr
      obtain ⟨l,hl,he⟩ := htrim r hr
      exact ⟨l,List.mem_cons_of_mem line hl,he⟩
    | value x env' =>
      have hquiet := (String.append_eq_empty_iff.mp herr).2
      obtain ⟨rows,hout,htrim,hlast⟩ := ih (Option.or (some x) last) others hquiet
      refine ⟨(Text.trim line,x) :: rows,?_,?_,?_⟩
      · rw [List.map_cons,String.join_cons,← hout]
        rfl
      · intro r hr
        rcases List.mem_cons.mp hr with rfl | hr
        · exact ⟨line,List.mem_cons_self,rfl⟩
        · obtain ⟨l,hl,he⟩ := htrim r hr
          exact ⟨l,List.mem_cons_of_mem line hl,he⟩
      · -- A later row has the last value, and this one if there is none.
        rw [List.getLast?_cons]
        refine hlast.trans ?_
        cases rows.getLast? <;> rfl
    | fault f env' env'' hne => exact absurd (String.append_eq_empty_iff.mp herr).1 hne

/-- With a fault, or with other white space in front of a line, the script is at fault. -/
theorem lastValue_of_fault {lines : List String} (last : Option Float)
    (h : (run evaluateLine lines env).1.err ≠ "" ∨ ∃ line ∈ lines, ¬ PlainIndent line) :
    ∃ f, Script.lastValue last lines env = .error f := by
  induction lines generalizing env last with
  | nil => simp [run_nil,Transcript.empty] at h
  | cons line lines ih =>
    rw [run_cons] at h
    rw [Script.lastValue]
    by_cases hplain : PlainIndent line
    · have others : (∃ l ∈ line :: lines, ¬ PlainIndent l) → ∃ l ∈ lines, ¬ PlainIndent l := by
        rintro ⟨l,hl,hn⟩
        rcases List.mem_cons.mp hl with rfl | hl
        · exact absurd hplain hn
        · exact ⟨l,hl,hn⟩
      have answered := answered_of_plainIndent hplain env
      generalize evaluate line env = a at answered ⊢
      generalize evaluateLine line env = b at answered h
      cases answered with
      | blank env' =>
        rw [Transcript.empty_append] at h
        exact ih _ (h.imp_right others)
      | value x env' =>
        rw [Transcript.append,String.empty_append] at h
        exact ih _ (h.imp_right others)
      | fault f env' env'' hne => exact ⟨f,rfl⟩
    · obtain ⟨f,env',hf⟩ := exists_fault_of_indent hplain env
      rw [String.ofList_toList] at hf
      rw [hf]
      exact ⟨f,rfl⟩

end Session

namespace CommandLine

/-- The last value of a script is that of the last answer to its lines, if none of them is answered
with a fault and only blanks stand in front of each. Otherwise a fault is all that is written. -/
theorem run_lastValue {readFile : String → Option String} {source : Source} {script : String}
    {linewise piped : List String} (hl : parse? linewise = some (.batch source))
    (hp : parse? piped = some (.lastValue source)) (hs : source.load readFile = .ok script)
    (input : String) :
    ((run readFile input linewise).transcript.err = "" →
      (∀ line ∈ Text.lines script, PlainIndent line) →
      ∃ rows : List (String × Float),
        Text.lines (run readFile input linewise).transcript.out =
          rows.map (fun r => Session.row r.1 r.2) ∧
        run readFile input piped =
          ⟨0,⟨(rows.getLast?.map (fun r => Number.text r.2 ++ "\n")).getD "",""⟩⟩) ∧
    (((run readFile input linewise).transcript.err ≠ "" ∨
        ∃ line ∈ Text.lines script, ¬ PlainIndent line) →
      ∃ f : Fault, run readFile input piped = ⟨1,⟨"",f.message ++ "\n"⟩⟩) := by
  have hanswers : run readFile input linewise = ⟨0,Session.batch script⟩ := by
    simp only [run,hl,Request.report,hs]
  have hreport : run readFile input piped = pipeReport script := by
    simp only [run,hp,Request.report,hs]
  rw [hanswers,hreport,pipeReport,Script.value,Session.batch]
  constructor
  · intro hquiet hplain
    obtain ⟨rows,hout,htrim,hlast⟩ := Session.lastValue_of_quiet none hplain hquiet
    refine ⟨rows,?_,?_⟩
    · have hrows : ∀ l ∈ rows.map (fun r => Session.row r.1 r.2),
          '\n' ∉ l.toList ∧ l.toList.getLast? ≠ some '\r' := by
        intro l hl
        obtain ⟨r,hr,rfl⟩ := List.mem_map.mp hl
        obtain ⟨line,hline,he⟩ := htrim r hr
        exact Session.row_is_line (he ▸ Text.not_mem_trim (Text.not_mem_of_mem_lines hline)) r.2
      have written := Text.lines_join hrows
      rw [List.map_map] at written
      exact (congrArg Text.lines hout).trans written
    · rw [hlast]
      cases rows.getLast? <;> rfl
  · intro hfault
    obtain ⟨f,hf⟩ := Session.lastValue_of_fault none hfault
    rw [hf]
    exact ⟨f,rfl⟩

/-- Lines with white space around them and one without a value; and a line behind a fault. -/
theorem run_lastValue_blanks :
    let script := " x = 2\r\n\n\tx * 4 \u00a0\n \n"
    let answers := "x = 2 => 2\nx * 4 => 8\n"
    run (fun _ => none) "" ["--",script] = ⟨0,⟨answers,""⟩⟩ ∧
    run (fun _ => none) "" ["-p","--",script] = ⟨0,⟨"8\n",""⟩⟩ ∧
    (∃ rows : List (String × Float),
      Text.lines answers = rows.map (fun r => Session.row r.1 r.2) ∧
      run (fun _ => none) "" ["-p","--",script] =
        ⟨0,⟨(rows.getLast?.map (fun r => Number.text r.2 ++ "\n")).getD "",""⟩⟩) ∧
    ∃ f : Fault, run (fun _ => none) "" ["-p","--","y\n1"] = ⟨1,⟨"",f.message ++ "\n"⟩⟩ := by
  intro script answers
  have linewise : ∀ text, parse? ["--",text] = some (.batch (.text text)) := fun _ => rfl
  have piped : ∀ text, parse? ["-p","--",text] = some (.lastValue (.text text)) := fun _ => rfl
  have load : ∀ text, Source.load (fun _ => none) (.text text) = .ok text := fun _ => rfl
  have hanswers : run (fun _ => none) "" ["--",script] = ⟨0,⟨answers,""⟩⟩ := by decide +kernel
  have agree := (run_lastValue (linewise script) (piped script) (load script) "").1
  rw [hanswers] at agree
  have fails := (run_lastValue (linewise "y\n1") (piped "y\n1") (load "y\n1") "").2
  have blanks : (Text.lines script).all (fun line => decide (PlainIndent line)) = true := by
    decide +kernel
  have plain : ∀ line ∈ Text.lines script, PlainIndent line := by
    intro line hl
    exact of_decide_eq_true (List.all_eq_true.mp blanks line hl)
  exact ⟨hanswers,by decide +kernel,agree rfl plain,fails (.inl (by decide +kernel))⟩

/-- White space that is no blank makes a difference: the line before it is answered, and in pipe
mode nothing is written but a fault. -/
theorem run_lastValue_space :
    run (fun _ => none) "" ["--","1\n\u00a0"] = ⟨0,⟨"1 => 1\n",""⟩⟩ ∧
    run (fun _ => none) "" ["-p","--","1\n\u00a0"] =
      ⟨1,⟨"","Error at position 0: Unexpected token: \u00a0.\n"⟩⟩ := by
  decide +kernel

end CommandLine

end Reckoner
