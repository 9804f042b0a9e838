import DeskCalc.Proofs.Calculation
import DeskCalc.Proofs.Layout.Evaluate
import DeskCalc.Proofs.Layout.Spread

/-
Layout does not matter.

The words of an accepted source can be put at other places, with any blanks between them.
The source that this gives has the same words, and comes to the same value or fails in the
same way.
-/
namespace DeskCalc

open Grammar

/-- Both are numbers of the same value that are shown in the same way, or both are errors of
the same kind and wording, which may point at different places. -/
def SameOutcome : Except CalcError Number → Except CalcError Number → Prop
  | .ok number, .ok number' => number'.value = number.value ∧ number'.display = number.display
  | .error error, .error error' =>
      error'.unplaced = error.unplaced ∧ error'.message = error.message
  | _, _ => False

theorem sameOutcome_of_apart {result result' : Except CalcError Number}
    (h : apart Number.wordless result' = apart Number.wordless result) :
    SameOutcome result result' := by
  rcases apart_cases h with ⟨error, error', rfl, rfl, hunplaced⟩ |
    ⟨number, number', rfl, rfl, hwordless⟩
  · refine ⟨hunplaced, ?_⟩
    rw [← error'.message_unplaced, hunplaced, error.message_unplaced]
  · have hvalue : number'.wordless.value = number.wordless.value := by rw [hwordless]
    have hdisplay : number'.wordless.display = number.wordless.display := by rw [hwordless]
    exact ⟨hvalue, hdisplay⟩

/-- Whether the evaluation of words lost digits, if none of its steps fails. -/
def Chain.reported? (context : Context) (words : List Word) (register : Option Register) :
    Option Bool :=
  match exhaust context words register with
  | .ok final => some final.inexact
  | .error _ => none

theorem Chain.reported?_congr {context : Context} {register : Option Register}
    {words words' : List Word}
    (h : apart wordless (ofWords words' register context) =
      apart wordless (ofWords words register context)) :
    reported? context words' register = reported? context words register := by
  rcases apart_cases (exhaust_congr h) with
    ⟨error, error', hexhaust, hexhaust', -⟩ | ⟨final, final', hexhaust, hexhaust', hfinal⟩
  · rw [reported?, reported?, hexhaust, hexhaust']
  · have hmark : final'.wordless.inexact = final.wordless.inexact := by rw [hfinal]
    rw [reported?, reported?, hexhaust, hexhaust']
    exact congrArg some hmark

theorem Chain.reported?_unplaced (context : Context) (register : Option Register)
    {words words' : List Word} (h : words'.map Word.unplaced = words.map Word.unplaced) :
    reported? context words' register = reported? context words register :=
  reported?_congr (ofWords_unplaced context register h)

/-- The words of an accepted source may be put anywhere, with any blanks before, between and
behind them: what this gives is accepted, and its words are the same but for their places.
So a formatted source stays as it is when it is formatted again, and it comes to the same
value, with the same display and mark of lost digits, or fails in the same way. -/
theorem layout_does_not_matter {source : Text} {log : Log} {words : List Word}
    (h : (parse source log).1 = .ok words) :
    (∀ row last log', row.map Prod.snd = words → Gaps row → Text.Blank last →
      ∃ words', (parse (spread row last) log').1 = .ok words' ∧
        words'.map Word.unplaced = words.map Word.unplaced) ∧
    ∃ text words', format source = .ok text ∧ format text = .ok text ∧
      (parse text {}).1 = .ok words' ∧ ∀ (calculator : Calculator) (register : Option Register),
        SameOutcome (calculator.evaluate source register).1
            (calculator.evaluate text register).1 ∧
          Chain.reported? calculator.context words' register =
            Chain.reported? calculator.context words register := by
  refine ⟨fun row last log' hrow hgaps hlast => parse_spread h hrow hgaps hlast, ?_⟩
  have hsource : (parse source {}).1 = .ok words := parse_eq_ok_iff.2 (parse_eq_ok_iff.1 h)
  obtain ⟨words', htext, hwords⟩ : ∃ words', (parse (joinTexts words) {}).1 = .ok words' ∧
      words'.map Word.unplaced = words.map Word.unplaced := by
    rw [← spread_uniform]
    exact parse_spread h (words_uniform words) (gaps_uniform words) (by simp [Text.Blank])
  refine ⟨joinTexts words, words', ?_, ?_, htext, fun calculator register => ⟨?_, ?_⟩⟩
  · rw [format, hsource]
    rfl
  · rw [format, htext, ← joinTexts_of_unplaced hwords]
    rfl
  · rw [evaluate_of_parse hsource, evaluate_of_parse htext]
    exact sameOutcome_of_apart (Calculator.evaluateWords_unplaced _ register hwords)
  · exact Chain.reported?_unplaced _ register hwords

/-- The words of `1 - -2`, which stay what they are when the blanks go. -/
def signedWords : List Word :=
  [.plain ['1'] .number 0, .plain ['-'] .operator 2, .plain ['-', '2'] .number 4]

theorem layout_does_not_matter_signed :
    (parse "1 - -2".toList {}).1 = .ok signedWords ∧
      ∃ words', (parse "1--2".toList {}).1 = .ok words' ∧
        words'.map Word.unplaced = signedWords.map Word.unplaced := by
  have hparse : (parse "1 - -2".toList {}).1 = .ok signedWords := by decide +kernel
  have htext : spread (signedWords.map fun word => ([], word)) [] = "1--2".toList := by decide
  refine ⟨hparse, ?_⟩
  rw [← htext]
  exact (layout_does_not_matter hparse).1 _ [] {} (by decide) (by simp [Gaps, Text.Blank])
    (by simp [Text.Blank])

end DeskCalc
