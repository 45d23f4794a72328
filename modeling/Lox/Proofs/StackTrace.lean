import Mathlib.Data.List.Basic
import Lox.Lexer
import Lox.Number.Literal
import Lox.Machine.StackTrace

/-!
# Stack traces lose nothing

A stack trace writes a run of equal lines once and notes how many more there were.
`StackTrace.expand` undoes this: it takes each note for as many copies of the line before it.  It knows
a note by its text, and since what stands for a call is never the text of a note, it finds again the
lines of all active calls (`Machine.stackTrace_expands`).
-/

namespace Lox

/-! ## Numerals -/

/-- The digits of a numeral are bytes, and digits as such. -/
lemma Text.digit_of_mem_toDigits {n : Nat} {c : Char} (hc : c ∈ Nat.toDigits 10 n) :
    c.toUInt8.toNat = c.toNat ∧ Lexer.isDigit c.toUInt8 = true := by
  have hdigit := Nat.isDigit_of_mem_toDigits (Nat.succ_pos 9) (Nat.le_refl 10) hc
  rw [Char.isDigit, Bool.and_eq_true, decide_eq_true_eq, decide_eq_true_eq] at hdigit
  have hlow : 48 ≤ c.toNat := hdigit.1
  have hhigh : c.toNat ≤ 57 := hdigit.2
  have hbyte : c.toUInt8.toNat = c.toNat := by
    have hmod : c.toUInt8.toNat = c.toNat % 256 := UInt32.toNat_toUInt8 c.val
    omega
  refine ⟨hbyte, ?_⟩
  rw [Lexer.isDigit, Bool.and_eq_true, decide_eq_true_eq, decide_eq_true_eq,
    UInt8.le_iff_toNat_le, UInt8.le_iff_toNat_le, hbyte]
  exact ⟨hlow, hhigh⟩

lemma Text.filter_isDigit_ofNat (n : Nat) : (ofNat n).filter Lexer.isDigit = ofNat n := by
  rw [List.filter_eq_self]
  intro b hb
  obtain ⟨c, hc, rfl⟩ := List.mem_map.1 hb
  exact (digit_of_mem_toDigits hc).2

lemma Number.readDigits_ofNat (n : Nat) : readDigits 0 (Text.ofNat n) = n := by
  rw [readDigits, Text.ofNat, List.foldl_map]
  refine Eq.trans ?_ (Nat.ofDigitChars_ten_toDigits (n := n))
  rw [Nat.ofDigitChars_eq_foldl]
  refine List.foldl_ext _ _ _ fun k c hc => ?_
  rw [(Text.digit_of_mem_toDigits hc).1]

namespace StackTrace

/-! ## Notes -/

/-- The note that a line was repeated so many times. -/
def note (times : Nat) : Text :=
  "[previous frame repeated " ++ Text.ofNat times ++ " more times]"

/-- How often a text notes that a line was repeated; nothing if it is no note. -/
def noted? (t : Text) : Option Nat :=
  let times := Number.readDigits 0 (t.filter Lexer.isDigit)
  if t = note times then some times else none

/-- Takes each note for copies of the line before it, which is `last` for the first one. -/
def expandAfter (last : Text) : List Text → List Text
  | [] => []
  | t :: ts =>
    match noted? t with
    | some times => List.replicate times last ++ expandAfter last ts
    | none => t :: expandAfter t ts

/-- All lines of a stack trace, with those that notes stand for. -/
def expand : List Text → List Text
  | [] => []
  | t :: ts => t :: expandAfter t ts

lemma filter_note (n : Nat) : (note n).filter Lexer.isDigit = Text.ofNat n := by
  have hbefore : (Text.ofString "[previous frame repeated ").filter Lexer.isDigit = [] := by
    decide +kernel
  have hbehind : (Text.ofString " more times]").filter Lexer.isDigit = [] := by
    decide +kernel
  rw [note, List.filter_append, List.filter_append, hbefore, hbehind, Text.filter_isDigit_ofNat,
    List.append_nil, List.nil_append]

/-- A note tells its number. -/
lemma noted?_eq_some {t : Text} {n : Nat} : noted? t = some n ↔ t = note n := by
  constructor
  · intro h
    rw [noted?] at h
    split at h
    case isTrue heq =>
      cases h
      exact heq
    case isFalse => cases h
  · rintro rfl
    rw [noted?, filter_note, Number.readDigits_ofNat]
    exact if_pos rfl

/-- What stands for a call is not a note. -/
lemma noted?_traceEntry (f : Frame) : noted? f.traceEntry = none := by
  rw [Option.eq_none_iff_forall_ne_some]
  intro n h
  rw [noted?_eq_some] at h
  -- they differ in their second byte
  have hsecond : (Text.ofString "[line ")[1]? = (Text.ofString "[previous frame repeated ")[1]? := by
    have hsame := congrArg (·[1]?) h
    rwa [Frame.traceEntry, note, List.append_assoc, List.append_assoc, List.append_assoc] at hsame
  exact absurd hsecond (by decide +kernel)

/-! ## Collapsing -/

section Collapsing

variable {last t : Text} {entries : List Text}

lemma repeatNote_of_pos {times : Nat} (htimes : 0 < times) : repeatNote times = [note times] :=
  if_neg (Nat.ne_of_gt htimes)

lemma expandAfter_repeatNote (last : Text) (times : Nat) (ts : List Text) :
    expandAfter last (repeatNote times ++ ts) = List.replicate times last ++ expandAfter last ts := by
  cases times with
  | zero => rfl
  | succ times =>
    rw [repeatNote_of_pos (Nat.succ_pos times), List.singleton_append, expandAfter,
      noted?_eq_some.2 rfl]

/-- The repetitions that are still to be noted come first. -/
lemma expandAfter_collapseAfter (hentries : ∀ t ∈ entries, noted? t = none) (last : Text)
    (times : Nat) :
    expandAfter last (collapseAfter last times entries) = List.replicate times last ++ entries := by
  induction entries generalizing last times with
  | nil =>
    have hnote := expandAfter_repeatNote last times []
    rwa [List.append_nil] at hnote
  | cons entry entries ih =>
    obtain ⟨hentry, hrest⟩ := List.forall_mem_cons.1 hentries
    rw [collapseAfter]
    split
    case isTrue heq => rw [ih hrest, heq, List.replicate_succ', List.append_assoc, List.singleton_append]
    case isFalse =>
      rw [expandAfter_repeatNote, expandAfter, hentry]
      dsimp only
      rw [ih hrest, List.replicate_zero, List.nil_append]

lemma expand_collapse (hentries : ∀ t ∈ entries, noted? t = none) :
    expand (collapse entries) = entries := by
  cases entries with
  | nil => rfl
  | cons entry entries =>
    rw [collapse, expand, expandAfter_collapseAfter (List.forall_mem_cons.1 hentries).2,
      List.replicate_zero, List.nil_append]

lemma mem_repeatNote {times : Nat} : t ∈ repeatNote times ↔ 0 < times ∧ t = note times := by
  cases times with
  | zero => simp [repeatNote]
  | succ times => simp [repeatNote_of_pos (Nat.succ_pos times)]

/-- Nothing is written but lines and notes of repetitions that there were. -/
lemma mem_collapseAfter {times : Nat} (ht : t ∈ collapseAfter last times entries) :
    t ∈ entries ∨ ∃ n, 0 < n ∧ t = note n := by
  induction entries generalizing last times with
  | nil => exact .inr ⟨times, mem_repeatNote.1 ht⟩
  | cons entry entries ih =>
    rw [collapseAfter] at ht
    split at ht
    case isTrue => exact (ih ht).imp_left (List.mem_cons_of_mem _)
    case isFalse =>
      rcases List.mem_append.1 ht with ht | ht
      · exact .inr ⟨times, mem_repeatNote.1 ht⟩
      · rcases List.mem_cons.1 ht with rfl | ht
        · exact .inl (List.mem_cons_self ..)
        · exact (ih ht).imp_left (List.mem_cons_of_mem _)

/-- What may follow in a stack trace: something else, and no note after a note. -/
def Precedes (s t : Text) : Prop :=
  s ≠ t ∧ (noted? s = none ∨ noted? t = none)

lemma precedes_note (hlast : noted? last = none) (n : Nat) : Precedes last (note n) := by
  refine ⟨?_, .inl hlast⟩
  rintro rfl
  rw [noted?_eq_some.2 rfl] at hlast
  cases hlast

lemma note_precedes (ht : noted? t = none) (n : Nat) : Precedes (note n) t :=
  ⟨(precedes_note ht n).1.symm, .inr ht⟩

lemma isChain_collapseAfter (hlast : noted? last = none) (hentries : ∀ t ∈ entries, noted? t = none)
    (times : Nat) : (last :: collapseAfter last times entries).IsChain Precedes := by
  induction entries generalizing last times with
  | nil =>
    cases times with
    | zero => exact .singleton _
    | succ times => exact .cons_cons (precedes_note hlast _) (.singleton _)
  | cons entry entries ih =>
    obtain ⟨hentry, hrest⟩ := List.forall_mem_cons.1 hentries
    rw [collapseAfter]
    split
    case isTrue => exact ih hlast hrest _
    case isFalse hne =>
      have hbehind := ih hentry hrest 0
      cases times with
      | zero => exact .cons_cons ⟨Ne.symm hne, .inl hlast⟩ hbehind
      | succ times =>
        exact .cons_cons (precedes_note hlast _) (.cons_cons (note_precedes hentry _) hbehind)

/-- The lines of a stack trace without the notes. -/
def unnoted (ts : List Text) : List Text :=
  ts.filter fun t => (noted? t).isNone

lemma unnoted_cons_of_eq_none (ht : noted? t = none) (ts : List Text) :
    unnoted (t :: ts) = t :: unnoted ts :=
  List.filter_cons_of_pos (by rw [ht]; rfl)

lemma unnoted_repeatNote (times : Nat) (ts : List Text) :
    unnoted (repeatNote times ++ ts) = unnoted ts := by
  have hnotes : unnoted (repeatNote times) = [] := by
    refine List.filter_eq_nil_iff.2 fun t ht => ?_
    rw [noted?_eq_some.2 (mem_repeatNote.1 ht).2]
    exact Bool.false_ne_true
  rw [unnoted, List.filter_append]
  exact congrArg (· ++ unnoted ts) hnotes

/-- Each run of equal lines is written as one. -/
lemma isChain_unnoted_collapseAfter (hentries : ∀ t ∈ entries, noted? t = none) (last : Text)
    (times : Nat) : (last :: unnoted (collapseAfter last times entries)).IsChain (· ≠ ·) := by
  induction entries generalizing last times with
  | nil =>
    have hnone := unnoted_repeatNote times []
    rw [List.append_nil] at hnone
    rw [collapseAfter, hnone]
    exact .singleton _
  | cons entry entries ih =>
    obtain ⟨hentry, hrest⟩ := List.forall_mem_cons.1 hentries
    rw [collapseAfter]
    split
    case isTrue => exact ih hrest _ _
    case isFalse hne =>
      rw [unnoted_repeatNote, unnoted_cons_of_eq_none hentry]
      exact .cons_cons (Ne.symm hne) (ih hrest entry 0)

end Collapsing

end StackTrace

/-! ## Main result -/

open StackTrace

/-- **A stack trace loses nothing.**  With each note taken for as many copies of the line before it,
there is one line for each active call, the innermost first.  A stack trace is as short as can be:

* no two texts in a row are equal, nor are two lines with nothing but a note between them;
* it begins with a line, no note follows a note, and each note is of one repetition at least. -/
theorem Machine.stackTrace_expands (m : Machine) :
    expand m.stackTrace = m.frames.toList.reverse.map Frame.traceEntry ∧
    m.stackTrace.IsChain (· ≠ ·) ∧
    (unnoted m.stackTrace).IsChain (· ≠ ·) ∧
    (∀ t ∈ m.stackTrace.head?, noted? t = none) ∧
    m.stackTrace.IsChain (fun s t => noted? s = none ∨ noted? t = none) ∧
    ∀ t ∈ m.stackTrace, ∀ n, noted? t = some n → 1 ≤ n := by
  have hentries : ∀ t ∈ m.frames.toList.reverse.map Frame.traceEntry, noted? t = none := by
    intro t ht
    obtain ⟨f, -, rfl⟩ := List.mem_map.1 ht
    exact noted?_traceEntry f
  rw [stackTrace]
  generalize m.frames.toList.reverse.map Frame.traceEntry = entries at hentries
  refine ⟨expand_collapse hentries, ?_⟩
  cases entries with
  | nil => simp [collapse, unnoted]
  | cons entry entries =>
    obtain ⟨hentry, hrest⟩ := List.forall_mem_cons.1 hentries
    have hchain := isChain_collapseAfter hentry hrest 0
    refine ⟨hchain.imp fun _ _ h => h.1, ?lines, ?first, hchain.imp fun _ _ h => h.2, ?counts⟩
    case lines =>
      rw [collapse, unnoted_cons_of_eq_none hentry]
      exact isChain_unnoted_collapseAfter hrest entry 0
    case first =>
      rintro t ⟨⟩
      exact hentry
    case counts =>
      intro t ht n hn
      rcases List.mem_cons.1 ht with rfl | ht
      · rw [hentry] at hn
        cases hn
      · rcases mem_collapseAfter ht with ht | ⟨k, hk, rfl⟩
        · rw [hrest t ht] at hn
          cases hn
        · rw [noted?_eq_some.2 rfl] at hn
          cases hn
          exact hk

/-- A run of three calls, and a call of the same function that stands alone. -/
theorem Machine.stackTrace_expands_runs :
    let call (name : Text) : Frame := ⟨0, name, Chunk.empty.write 0 3, 1, 0⟩
    let m : Machine := { Machine.new .standard with
      frames := #[call [], call "f", call "g", call "f", call "f", call "f"] }
    m.stackTrace = ["[line 3] in f()", "[previous frame repeated 2 more times]", "[line 3] in g()",
        "[line 3] in f()", "[line 3] in script"] ∧
      expand m.stackTrace = ["[line 3] in f()", "[line 3] in f()", "[line 3] in f()",
        "[line 3] in g()", "[line 3] in f()", "[line 3] in script"] ∧
      noted? "[line 3] in f()" = none ∧
      ∃ n, noted? "[previous frame repeated 2 more times]" = some n ∧ 1 ≤ n := by
  intro call m
  have htrace : m.stackTrace = ["[line 3] in f()", "[previous frame repeated 2 more times]",
      "[line 3] in g()", "[line 3] in f()", "[line 3] in script"] := by decide +kernel
  obtain ⟨hexpand, -, -, hfirst, -, hcounts⟩ := m.stackTrace_expands
  have hentries : m.frames.toList.reverse.map Frame.traceEntry = ["[line 3] in f()",
      "[line 3] in f()", "[line 3] in f()", "[line 3] in g()", "[line 3] in f()",
      "[line 3] in script"] := by decide +kernel
  have hnoted : noted? "[previous frame repeated 2 more times]" = some 2 := by decide +kernel
  rw [htrace] at hfirst hcounts
  exact ⟨htrace, hexpand.trans hentries, hfirst _ rfl, 2, hnoted,
    hcounts _ (List.mem_cons_of_mem _ (List.mem_cons_self ..)) 2 hnoted⟩

end Lox
