import Reckoner.CommandLine
import Reckoner.Proofs.Lines

namespace Reckoner

namespace Transcript

theorem empty_append (t : Transcript) : empty.append t = t := by
  simp [append,empty]

theorem append_empty (t : Transcript) : t.append empty = t := by
  simp [append,empty]

theorem append_assoc (t u v : Transcript) : (t.append u).append v = t.append (u.append v) := by
  simp [append,String.append_assoc]

def concat (ts : List Transcript) : Transcript := ts.foldr append empty

end Transcript

namespace Session
variable {step : String → Environment → Transcript × Environment}

theorem foldl_advance (lines : List String) (t : Transcript) (env : Environment) :
    lines.foldl (advance step) (t,env) =
      (t.append (run step lines env).1,(run step lines env).2) := by
  induction lines generalizing t env with
  | nil => rw [run,List.foldl_nil,List.foldl_nil,Transcript.append_empty]
  | cons line lines ih =>
    rw [run,List.foldl_cons,List.foldl_cons,advance,advance,ih,
      ih (Transcript.empty.append _),Transcript.empty_append,Transcript.append_assoc]

theorem run_nil (env : Environment) : run step [] env = (.empty,env) := rfl

theorem run_cons (line : String) (lines : List String) (env : Environment) :
    run step (line :: lines) env =
      ((step line env).1.append (run step lines (step line env).2).1,
        (run step lines (step line env).2).2) := by
  rw [run,List.foldl_cons,advance,foldl_advance,Transcript.empty_append]

/-- Lines go on with the variables that those before them have left. -/
theorem run_append (before after : List String) (env : Environment) :
    run step (before ++ after) env =
      ((run step before env).1.append (run step after (run step before env).2).1,
        (run step after (run step before env).2).2) := by
  rw [run,List.foldl_append,← run,foldl_advance]

/-- The lines that are no expressions. -/
def IsCommand (line : String) : Prop := Text.trim line = ":clear" ∨ Text.trim line = ":help"

instance (line : String) : Decidable (IsCommand line) :=
  inferInstanceAs (Decidable (Text.trim line = ":clear" ∨ Text.trim line = ":help"))

theorem answer_of_not_command {line : String} (h : ¬ IsCommand line) (env : Environment) :
    answer line env = evaluateLine line env := by
  obtain ⟨hclear,hhelp⟩ := not_or.mp h
  rw [answer,if_neg hclear,if_neg hhelp]

theorem answer_clear {line : String} (h : Text.trim line = ":clear") (env : Environment) :
    answer line env = (.empty,.empty) := if_pos h

theorem answer_help {line : String} (h : Text.trim line = ":help") (env : Environment) :
    answer line env = (⟨helpText,""⟩,env) := by
  rw [answer,if_neg (by rw [h]; decide),if_pos h]

theorem trim_dropLineEnd (line : List Char) :
    Text.trim (String.ofList (Text.dropLineEnd line)) = Text.trim (String.ofList line) := by
  rw [Text.trim,Text.trim,String.toList_ofList,String.toList_ofList,Text.trimChars_dropLineEnd]

theorem evaluateLine_dropLineEnd (line : List Char) (env : Environment) :
    evaluateLine (String.ofList (Text.dropLineEnd line)) env =
      evaluateLine (String.ofList line) env := by
  rw [evaluateLine,evaluateLine,trim_dropLineEnd]

/-- Lines without commands are answered as they are in a script. -/
theorem run_answer_of_not_command {lines : List (List Char)} (env : Environment)
    (h : ∀ line ∈ lines, ¬ IsCommand (String.ofList (Text.dropLineEnd line))) :
    run answer (lines.map String.ofList) env =
      run evaluateLine (lines.map (fun l => String.ofList (Text.dropLineEnd l))) env := by
  induction lines generalizing env with
  | nil => rw [List.map_nil,List.map_nil,run_nil,run_nil]
  | cons line lines ih =>
    have hline := h line List.mem_cons_self
    rw [IsCommand,trim_dropLineEnd,← IsCommand] at hline
    rw [List.map_cons,List.map_cons,run_cons,run_cons,answer_of_not_command hline,
      evaluateLine_dropLineEnd,ih _ (fun l hl => h l (List.mem_cons_of_mem _ hl))]

/-- A session without commands is a script that is evaluated line by line. -/
theorem interactive_eq_batch {text : String} (h : ∀ line ∈ Text.lines text, ¬ IsCommand line) :
    interactive text = batch text := by
  rw [interactive,batch,Text.endedLines,Text.lines,run_answer_of_not_command]
  intro line hl
  exact h _ (List.mem_map_of_mem hl)

/-- The parts of the input between the lines that clear the variables. -/
def pieces (input : String) : List String :=
  ((Text.cutLines input.toList).splitOnP (fun l => Text.trim (String.ofList l) = ":clear")).map
    (fun lines => String.ofList lines.flatten)

/-- Behind each line that clears the variables a session starts anew. -/
theorem run_answer_sections (lines : List (List Char)) (env : Environment) :
    ∃ first others,
      lines.splitOnP (fun l => Text.trim (String.ofList l) = ":clear") = first :: others ∧
      (run answer (lines.map String.ofList) env).1 =
        (run answer (first.map String.ofList) env).1.append
          (Transcript.concat
            (others.map (fun ls => (run answer (ls.map String.ofList) .empty).1))) := by
  induction lines generalizing env with
  | nil => exact ⟨[],[],List.splitOnP_nil,rfl⟩
  | cons line lines ih =>
    rw [List.splitOnP_cons_eq_if_modifyHead,List.map_cons,run_cons]
    -- The line is the end of an empty first piece, or it is put in front of the first piece.
    by_cases hclear : Text.trim (String.ofList line) = ":clear"
    · obtain ⟨first,others,hsplit,hrun⟩ := ih .empty
      refine ⟨[],first :: others,by rw [if_pos (decide_eq_true hclear),hsplit],?_⟩
      rw [answer_clear hclear,hrun]
      rfl
    · obtain ⟨first,others,hsplit,hrun⟩ := ih (answer (String.ofList line) env).2
      refine ⟨line :: first,others,?_,?_⟩
      · rw [if_neg (by simpa using hclear),hsplit,List.modifyHead_cons]
      · rw [List.map_cons,run_cons,hrun,Transcript.append_assoc]

/-- A session is the sessions that its pieces are, one after the other. -/
theorem interactive_eq_concat (input : String) :
    interactive input = Transcript.concat ((pieces input).map interactive) := by
  obtain ⟨first,others,hsplit,hrun⟩ := run_answer_sections (Text.cutLines input.toList) .empty
  have again : (first :: others).map (fun lines => interactive (String.ofList lines.flatten)) =
      (first :: others).map (fun lines => (run answer (lines.map String.ofList) .empty).1) := by
    apply List.map_congr_left
    intro piece hp
    have hcut := (Text.cut_cutLines input.toList).splitOnP _ piece (hsplit ▸ hp)
    rw [interactive,Text.endedLines,String.toList_ofList,hcut.cutLines_flatten]
  rw [pieces,hsplit,List.map_map]
  exact hrun.trans (congrArg Transcript.concat again.symm)

/-- A line that asks for help adds the help, and the others are answered as if it were not there. -/
theorem run_help {before after : List String} {line : String} {env left last : Environment}
    {t u : Transcript} (h : Text.trim line = ":help") (hb : run answer before env = (t,left))
    (ha : run answer after left = (u,last)) :
    run answer (before ++ after) env = (t.append u,last) ∧
      run answer (before ++ line :: after) env = (t.append (.append ⟨helpText,""⟩ u),last) := by
  constructor
  · rw [run_append,hb,ha]
  · rw [run_append,hb,run_cons,answer_help h,ha]

end Session

namespace CommandLine

theorem run_session (readFile : String → Option String) (input : String) :
    run readFile input [] = ⟨0,Session.interactive input⟩ := rfl

theorem run_text (readFile : String → Option String) (input text : String) :
    run readFile input ["--",text] = ⟨0,Session.batch text⟩ := rfl

theorem run_file {readFile : String → Option String} {path text : String} {arguments : List String}
    (ha : parse? arguments = some (.batch (.file path))) (hf : readFile path = some text)
    (input : String) : run readFile input arguments = ⟨0,Session.batch text⟩ := by
  rw [run,ha]
  simp only [Request.report,Source.load,hf]

/-- Lines without commands are answered alike wherever they come from: the input of a session, a
file or the command line. In a session a line that clears the variables parts two sessions, and one
that asks for help adds the help. -/
theorem run_lines (readFile : String → Option String) :
    (∀ input text path arguments, (∀ line ∈ Text.lines text, ¬ Session.IsCommand line) →
      parse? arguments = some (.batch (.file path)) → readFile path = some text →
      (run readFile text []).status = 0 ∧
      run readFile input arguments = run readFile text [] ∧
      run readFile input ["--",text] = run readFile text []) ∧
    (∀ input, (run readFile input []).transcript =
      .concat ((Session.pieces input).map (fun piece => (run readFile piece []).transcript))) ∧
    (∀ before line after env left last t u, Text.trim line = ":help" →
      Session.run Session.answer before env = (t,left) →
      Session.run Session.answer after left = (u,last) →
      Session.run Session.answer (before ++ after) env = (t.append u,last) ∧
      Session.run Session.answer (before ++ line :: after) env =
        (t.append (.append ⟨Session.helpText,""⟩ u),last)) := by
  refine ⟨?_,Session.interactive_eq_concat,?_⟩
  · intro input text path arguments hc ha hf
    have same := Session.interactive_eq_batch hc
    rw [run_file ha hf,run_text,run_session,same]
    exact ⟨rfl,rfl,rfl⟩
  · intro before line after env left last t u h hb ha
    exact Session.run_help h hb ha

/-- Lines with all kinds of ends, one of which has no value and one a fault; and a session that asks
for help between an assignment and a use of it. -/
theorem run_lines_help :
    let text := "x = 2\r\n\ny\n x\r"
    let readFile := fun path => if path = "s" then some text else none
    run readFile ":help" ["-f","s"] =
      ⟨0,⟨"x = 2 => 2\nx => 2\n","y => error: Error at position 0: Unknown variable: y.\n"⟩⟩ ∧
    run readFile ":help" ["-f","s"] = run readFile text [] ∧
    run readFile ":help" ["--",text] = run readFile text [] ∧
    (Session.run Session.answer (["x = 2\n"] ++ " :help\r\n" :: ["x\n",":clear","x"]) .empty).1 =
      .append ⟨"x = 2 => 2\n",""⟩ (.append ⟨Session.helpText,""⟩
        ⟨"x => 2\n","x => error: Error at position 0: Unknown variable: x.\n"⟩) := by
  intro text readFile
  obtain ⟨same,_,help⟩ := run_lines readFile
  have expressions :
      (Text.lines text).all (fun line => !decide (Session.IsCommand line)) = true := by
    decide +kernel
  obtain ⟨_,hfile,htext⟩ := same ":help" text "s" ["-f","s"]
    (by simpa only [List.all_eq_true,Bool.not_eq_true',decide_eq_false_iff_not] using expressions)
    (by decide +kernel) (by decide +kernel)
  obtain ⟨_,hhelp⟩ := help ["x = 2\n"] " :help\r\n" ["x\n",":clear","x"] .empty _ _ _ _
    (by decide +kernel) (Prod.eta _).symm (Prod.eta _).symm
  exact ⟨by decide +kernel,hfile,htext,(congrArg Prod.fst hhelp).trans (by decide +kernel)⟩

end CommandLine

end Reckoner
