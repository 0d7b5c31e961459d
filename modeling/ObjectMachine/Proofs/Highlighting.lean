import Mathlib.Data.List.Basic
import ObjectMachine.Console.Style
import ObjectMachine.Proofs.Placeholders

namespace ObjectMachine.Console

/-!
# Highlighted traces

Highlighting goes over a trace several times: over its lines for the frames, and then over the whole
text for each heading, where the codes of the frames are in it already and a heading may stand
inside of a frame or of a value. This file shows that codes are all that comes into the text:

* `withoutCodes` — a text without its escape codes;
* `Overlaid` — a text with codes put between the characters of another one;
* `Overlaid.erase` — the other one is left when the codes are deleted;
* `overlaid_highlightFrames`, `Overlaid.replaceFrom` — highlighting frames or a heading puts codes
  into a text, and leaves those in it as they are;
* `deleting_codes_restores_trace` — so a trace is what is left of the highlighted one.
-/

/-! ### Escape codes -/

/-- Whether a character may stand between the bracket and the `m` of a code. -/
def isParameter (c : Char) : Bool :=
  Text.isDigit c || c = ';'

/-- The length of the code that a text starts with. -/
def codeLength? : List Char → Option Nat
  | '\x1b' :: '[' :: cs =>
    match cs.dropWhile isParameter with
    | 'm' :: _ => some ((cs.takeWhile isParameter).length + 3)
    | _ => none
  | _ => none

/-- Deletes every code. The first `skip` characters belong to a code that is already found. -/
def eraseCodes (skip : Nat) : List Char → List Char
  | [] => []
  | c :: cs =>
    match skip with
    | skip + 1 => eraseCodes skip cs
    | 0 =>
      match codeLength? (c :: cs) with
      | some n => eraseCodes (n - 1) cs
      | none => c :: eraseCodes 0 cs

/-- A text without its escape codes. -/
def withoutCodes (text : String) : String :=
  String.ofList (eraseCodes 0 text.toList)

theorem eraseCodes_eq_drop (skip : Nat) (cs : List Char) :
    eraseCodes skip cs = eraseCodes 0 (cs.drop skip) := by
  induction cs generalizing skip with
  | nil => simp [eraseCodes]
  | cons c cs ih =>
    cases skip with
    | zero => rfl
    | succ skip => exact ih skip

theorem codeLength?_code {ps t : List Char} (hps : ps.all isParameter = true) :
    codeLength? ('\x1b' :: '[' :: (ps ++ 'm' :: t)) = some (ps.length + 3) := by
  have hps' : ∀ c ∈ ps, isParameter c = true := List.all_eq_true.1 hps
  have htake : (ps ++ 'm' :: t).takeWhile isParameter = ps := by
    rw [List.takeWhile_append_of_pos hps', List.takeWhile_cons_of_neg (by decide), List.append_nil]
  have hdrop : (ps ++ 'm' :: t).dropWhile isParameter = 'm' :: t := by
    rw [List.dropWhile_append_of_pos hps', List.dropWhile_cons_of_neg (by decide)]
  simp only [codeLength?, htake, hdrop]

theorem codeLength?_eq_none {c : Char} {t : List Char} (hc : c ≠ '\x1b') :
    codeLength? (c :: t) = none := by
  unfold codeLength?
  split
  · rename_i heq
    exact absurd (List.cons.inj heq).1 hc
  · rfl

/-- What follows a code, counted from its second character. -/
theorem drop_code (ps t : List Char) : ('[' :: (ps ++ 'm' :: t)).drop (ps.length + 2) = t := by
  simp [List.drop_append]

/-! ### Codes between characters -/

/-- A text is another one, without escape characters, with codes put between its characters. -/
inductive Overlaid : List Char → List Char → Prop
  | nil : Overlaid [] []
  | char {c : Char} {t s : List Char} (hc : c ≠ '\x1b') (h : Overlaid t s) :
      Overlaid (c :: t) (c :: s)
  | code {ps t s : List Char} (hps : ps.all isParameter = true) (h : Overlaid t s) :
      Overlaid ('\x1b' :: '[' :: (ps ++ 'm' :: t)) s

namespace Overlaid

variable {s t s' t' pre : List Char}

/-- Deleting the codes leaves the text that they were put into. -/
theorem erase (h : Overlaid t s) : eraseCodes 0 t = s := by
  induction h with
  | nil => rfl
  | char hc h ih => rw [eraseCodes, codeLength?_eq_none hc, ih]
  | @code ps t s hps h ih =>
    rw [eraseCodes, codeLength?_code hps]
    show eraseCodes (ps.length + 2) ('[' :: (ps ++ 'm' :: t)) = s
    rw [eraseCodes_eq_drop, drop_code, ih]

theorem withoutCodes {text colored : String} (h : Overlaid colored.toList text.toList) :
    withoutCodes colored = text := by
  rw [Console.withoutCodes, h.erase, String.ofList_toList]

/-- No codes are put into a text. -/
theorem refl (hs : '\x1b' ∉ s) : Overlaid s s := by
  induction s with
  | nil => exact .nil
  | cons c s ih =>
    simp only [List.mem_cons, not_or] at hs
    exact .char (Ne.symm hs.1) (ih hs.2)

theorem append (h : Overlaid t s) (h' : Overlaid t' s') : Overlaid (t ++ t') (s ++ s') := by
  induction h with
  | nil => exact h'
  | char hc h ih => exact .char hc ih
  | code hps h ih =>
    simp only [List.cons_append, List.append_assoc]
    exact .code hps ih

/-- The characters in front are those of the text, if no code starts among them. -/
theorem of_append (hpre : '\x1b' ∉ pre) (h : Overlaid (pre ++ t) s) :
    ∃ s', s = pre ++ s' ∧ Overlaid t s' := by
  induction pre generalizing s with
  | nil => exact ⟨s, rfl, h⟩
  | cons c pre ih =>
    simp only [List.mem_cons, not_or] at hpre
    rw [List.cons_append] at h
    generalize hrest : pre ++ t = rest at h
    cases h with
    | char hc h =>
      obtain ⟨s', rfl, h'⟩ := ih hpre.2 (hrest ▸ h)
      exact ⟨s', rfl, h'⟩
    | code hps h => exact absurd rfl hpre.1

end Overlaid

/-! ### Styles -/

/-- Each style switches itself on by a code in front of the text, and off by another one behind
    it. -/
def Wraps (paint : Style → String → String) : Prop :=
  ∀ style, ∃ parameters : String, parameters.toList.all isParameter = true ∧
    ∀ text, paint style text = "\x1b[" ++ parameters ++ "m" ++ text ++ closing

theorem wraps_paint : Wraps (paint true) := by
  intro style
  refine ⟨style.codes, ?_, fun text => rfl⟩
  cases style <;> decide

section

variable {paint : Style → String → String} {style : Style} {text : String} {s line : List Char}

/-- A text in a style is the text with two codes. -/
theorem Wraps.overlaid (hpaint : Wraps paint) (h : Overlaid text.toList s) :
    Overlaid (paint style text).toList s := by
  obtain ⟨parameters, hparameters, heq⟩ := hpaint style
  have hclosing : Overlaid ('\x1b' :: '[' :: (['0'] ++ 'm' :: [])) [] := .code (by decide) .nil
  have htail : Overlaid (text.toList ++ closing.toList) (s ++ []) := h.append hclosing
  rw [List.append_nil] at htail
  rw [heq]
  simpa [String.toList_append] using Overlaid.code hparameters htail

/-! ### Frames -/

theorem splitLines_ne_nil (cs : List Char) : Text.splitLines cs ≠ [] := by
  cases cs with
  | nil => simp [Text.splitLines]
  | cons c cs =>
    rw [Text.splitLines]
    split
    · simp
    · split <;> simp

theorem joinLines_splitLines (cs : List Char) : Text.joinLines (Text.splitLines cs) = cs := by
  induction cs with
  | nil => rfl
  | cons c cs ih =>
    obtain ⟨line, rest, hsplit⟩ := List.exists_cons_of_ne_nil (splitLines_ne_nil cs)
    rw [hsplit] at ih
    by_cases hc : c = '\n'
    · rw [Text.splitLines, if_pos hc, hsplit, Text.joinLines, ih, hc]
      rfl
    · rw [Text.splitLines, if_neg hc, hsplit]
      cases rest <;> simpa [Text.joinLines] using ih

theorem mem_joinLines {c : Char} {lines : List (List Char)} (hline : line ∈ lines)
    (hc : c ∈ line) : c ∈ Text.joinLines lines := by
  induction lines with
  | nil => exact absurd hline (List.not_mem_nil)
  | cons first rest ih =>
    cases rest with
    | nil =>
      obtain rfl := List.mem_singleton.1 hline
      exact hc
    | cons next rest =>
      rw [Text.joinLines, List.mem_append, List.mem_cons]
      rcases List.mem_cons.1 hline with rfl | hline
      · exact .inl hc
      · exact .inr (.inr (ih hline))

/-- Codes that are put into each line of a text are put into the text. -/
theorem overlaid_joinLines {f : List Char → List Char} {lines : List (List Char)}
    (hf : ∀ line ∈ lines, Overlaid (f line) line) :
    Overlaid (Text.joinLines (lines.map f)) (Text.joinLines lines) := by
  induction lines with
  | nil => exact .nil
  | cons line rest ih =>
    have hfirst : Overlaid (f line) line := hf line (List.mem_cons_self ..)
    cases rest with
    | nil => exact hfirst
    | cons next rest =>
      have hothers := ih fun line hline => hf line (List.mem_cons_of_mem _ hline)
      exact hfirst.append (.char (by decide) hothers)

theorem overlaid_highlightLine (hpaint : Wraps paint) (hline : '\x1b' ∉ line) :
    Overlaid (highlightLine paint line) line := by
  unfold highlightLine
  split
  · exact hpaint.overlaid (by simpa using Overlaid.refl hline)
  · exact .refl hline

theorem overlaid_highlightFrames (hpaint : Wraps paint) (hesc : '\x1b' ∉ text.toList) :
    Overlaid (highlightFrames paint text).toList text.toList := by
  have hlines : ∀ line ∈ Text.splitLines text.toList, '\x1b' ∉ line := by
    intro line hline hin
    have hmem := mem_joinLines hline hin
    rw [joinLines_splitLines] at hmem
    exact hesc hmem
  have hjoin := overlaid_joinLines fun line hline =>
    overlaid_highlightLine hpaint (hlines line hline)
  rw [joinLines_splitLines] at hjoin
  simpa [highlightFrames] using hjoin

/-! ### Headings -/

/-- No occurrence of a text starts or ends inside of a code: it has no escape characters, and no
    code goes on with its first character. -/
def Unmistakable (old : List Char) : Prop :=
  '\x1b' ∉ old ∧ ∃ c rest, old = c :: rest ∧ c ≠ '[' ∧ c ≠ 'm' ∧ isParameter c = false

/-- Replacing goes past characters that no occurrence starts with. -/
theorem replaceFrom_append_of_forall {old new pre t : List Char}
    (hpre : ∀ c ∈ pre, old.head? ≠ some c) (hne : old ≠ []) :
    Text.replaceFrom old new 0 (pre ++ t) = pre ++ Text.replaceFrom old new 0 t := by
  obtain ⟨a, rest, rfl⟩ := List.exists_cons_of_ne_nil hne
  induction pre with
  | nil => rfl
  | cons c pre ih =>
    have hfirst : ¬ a :: rest <+: c :: (pre ++ t) := by
      rintro h
      exact hpre c (List.mem_cons_self ..) (by rw [(List.cons_prefix_cons.1 h).1]; rfl)
    rw [List.cons_append, Text.replaceFrom_cons hfirst,
      ih fun c' hc' => hpre c' (List.mem_cons_of_mem _ hc')]
    rfl

/-- Replacing a text by one that is the same but for codes puts codes into a text, whichever are
    in it already. -/
theorem Overlaid.replaceFrom {old new : List Char} (hold : Unmistakable old)
    (hnew : Overlaid new old) (skip : Nat) (h : Overlaid (t.drop skip) s) :
    Overlaid (Text.replaceFrom old new skip t) s := by
  obtain ⟨hesc, a, rest, rfl, hbracket, hm, hparameter⟩ := hold
  induction t generalizing skip s with
  | nil => simpa [Text.replaceFrom] using h
  | cons c t ih =>
    cases skip with
    | succ skip => exact ih skip h
    | zero =>
      rw [List.drop_zero] at h
      by_cases hprefix : a :: rest <+: c :: t
      · obtain ⟨after, hafter⟩ := hprefix
        rw [← hafter] at h ⊢
        obtain rfl : rest ++ after = t := (List.cons.inj hafter).2
        obtain ⟨s', rfl, h'⟩ := h.of_append hesc
        have hothers := ih rest.length (by rwa [List.drop_left])
        rw [Text.replaceFrom_eq_drop, List.drop_left] at hothers
        rw [Text.replaceFrom_append (List.cons_ne_nil a rest)]
        exact hnew.append hothers
      · rw [Text.replaceFrom_cons hprefix]
        cases h with
        | char hc h => exact .char hc (ih 0 h)
        | @code ps after _ hps h =>
          -- An occurrence may start after a code, but not inside of it.
          have hpast : Text.replaceFrom (a :: rest) new 0 ('[' :: (ps ++ 'm' :: after)) =
              '[' :: (ps ++ 'm' :: Text.replaceFrom (a :: rest) new 0 after) := by
            have hinside : ∀ c ∈ '[' :: (ps ++ ['m']), (a :: rest).head? ≠ some c := by
              intro c hc heq
              obtain rfl := Option.some.inj heq
              rcases List.mem_cons.1 hc with rfl | hc
              · exact hbracket rfl
              rcases List.mem_append.1 hc with hc | hc
              · exact absurd (List.all_eq_true.1 hps _ hc) (by simp [hparameter])
              · exact hm (List.mem_singleton.1 hc)
            simpa using replaceFrom_append_of_forall hinside (List.cons_ne_nil a rest)
          have hothers := ih (ps.length + 2) (by rwa [drop_code])
          rw [Text.replaceFrom_eq_drop, drop_code] at hothers
          rw [hpast]
          exact .code hps hothers

theorem unmistakable_headings : ∀ h ∈ headings, Unmistakable h.toList := by
  simp only [headings, List.forall_mem_cons]
  refine ⟨?_, ?_, ?_, by simp⟩ <;>
    exact ⟨by decide, _, _, rfl, by decide, by decide, by decide⟩

theorem overlaid_highlightHeadings (hpaint : Wraps paint) {hs : List String}
    (hhs : ∀ h ∈ hs, Unmistakable h.toList) (h : Overlaid text.toList s) :
    Overlaid (hs.foldl (fun t h => Text.replaceAll t h (paint .heading h)) text).toList s := by
  induction hs generalizing text with
  | nil => exact h
  | cons heading hs ih =>
    have hheading : Unmistakable heading.toList := hhs heading (List.mem_cons_self ..)
    have hnew : Overlaid (paint .heading heading).toList heading.toList :=
      hpaint.overlaid (.refl hheading.1)
    have hfirst : Overlaid (Text.replaceAll text heading (paint .heading heading)).toList s := by
      rw [Text.replaceAll, String.toList_ofList]
      exact Overlaid.replaceFrom hheading hnew 0 h
    exact ih (fun h hin => hhs h (List.mem_cons_of_mem _ hin)) hfirst

theorem overlaid_highlightBy (hpaint : Wraps paint) (hesc : '\x1b' ∉ text.toList) :
    Overlaid (highlightBy paint text).toList text.toList :=
  overlaid_highlightHeadings hpaint unmistakable_headings (overlaid_highlightFrames hpaint hesc)

theorem overlaid_highlight (color : Bool) (hesc : '\x1b' ∉ text.toList) :
    Overlaid (highlight color text).toList text.toList := by
  unfold highlight
  split
  · exact overlaid_highlightBy wraps_paint hesc
  · exact .refl hesc

/-- Whatever the codes of the styles are, and whether colours are on or off: if a trace has no
    escape characters, then the trace is what is left of the highlighted one when all codes are
    deleted. -/
theorem deleting_codes_restores_trace (hpaint : Wraps paint) (hesc : '\x1b' ∉ text.toList) :
    withoutCodes (highlightBy paint text) = text ∧
      ∀ color, withoutCodes (highlight color text) = text :=
  ⟨(overlaid_highlightBy hpaint hesc).withoutCodes,
    fun color => (overlaid_highlight color hesc).withoutCodes⟩

end

/-- Headings stand as such, in the name of the class of a frame and in a text. -/
theorem deleting_codes_restores_trace_with_headings_inside :
    let text := "Stack:\nPrc1@obj1:Stack::\n\t\x7bx: \"Statement:\"\x7d\n"
    highlight true text = "\x1b[33mStack:\x1b[0m\n" ++
        "\x1b[36mPrc1@obj1:\x1b[33mStack:\x1b[0m:\x1b[0m\n" ++
        "\t\x7bx: \"\x1b[33mStatement:\x1b[0m\"\x7d\n" ∧
      withoutCodes (highlightBy (paint true) text) = text ∧
      ∀ color, withoutCodes (highlight color text) = text := by
  intro text
  exact ⟨by decide +kernel, deleting_codes_restores_trace wraps_paint (by decide +kernel)⟩

end ObjectMachine.Console
