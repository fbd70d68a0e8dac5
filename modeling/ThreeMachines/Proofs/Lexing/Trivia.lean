/-
What lies between tokens, and where things stand in a text.

`Trivia` are the texts of blanks and comments. `skipTrivia` drops the trivia at the front of a text and nothing else
(`exists_trivia`, `skipTrivia_trivia`). `Span.at` is the span of a piece of text, told by what stands before it: bytes,
line feeds, and characters since the last line feed. That is what a `Position` counts on the way (`after_origin`).
-/
import Mathlib.Tactic
import ThreeMachines.Syntax.Scan

namespace ThreeMachines

/-- blanks and comments; a comment ends with a line feed, or with the text if it is `final` -/
inductive Trivia (final : Bool) : List Char → Prop where
  | nil : Trivia final []
  | blank {c : Char} {gap : List Char} (hc : c ∈ [' ', '\t', '\r', '\n']) (later : Trivia final gap) :
    Trivia final (c :: gap)
  | comment {line gap : List Char} (hline : '\n' ∉ line) (later : Trivia final gap) :
    Trivia final ('#' :: (line ++ '\n' :: gap))
  | unended {line : List Char} (hfinal : final = true) (hline : '\n' ∉ line) : Trivia final ('#' :: line)

/-- the bytes of a text -/
def byteSize (cs : List Char) : Nat := (String.ofList cs).utf8ByteSize

/-- the span of a piece of text, after what stands before it -/
def Span.at (before piece : List Char) : Span where
  start := byteSize before
  stop := byteSize (before ++ piece)
  line := 1 + before.count '\n'
  column := 1 + (before.reverse.takeWhile fun c => c ≠ '\n').length

/-! ## Places -/

theorem byteSize_append (cs ds : List Char) : byteSize (cs ++ ds) = byteSize cs + byteSize ds := by
  rw [byteSize, String.ofList_append, String.utf8ByteSize_append]
  rfl

theorem byteSize_singleton (c : Char) : byteSize [c] = c.utf8Size := by
  rw [byteSize, ← String.singleton_eq_ofList, String.utf8ByteSize_singleton]

theorem byteSize_pos {cs : List Char} (h : cs ≠ []) : 0 < byteSize cs := by
  obtain ⟨c, cs, rfl⟩ := List.exists_cons_of_ne_nil h
  rw [← List.singleton_append, byteSize_append, byteSize_singleton]
  exact Nat.add_pos_left c.utf8Size_pos _

namespace Position

theorem after_append (p : Position) (cs ds : List Char) : p.after (cs ++ ds) = (p.after cs).after ds :=
  List.foldl_append

/-- a position counts bytes, line feeds, and characters since the last line feed -/
theorem after_origin (before : List Char) : origin.after before =
    ⟨byteSize before, 1 + before.count '\n', 1 + (before.reverse.takeWhile fun c => c ≠ '\n').length⟩ := by
  induction before using List.reverseRecOn with
  | nil => rfl
  | append_singleton before c ih =>
    rw [after_append, ih, byteSize_append, byteSize_singleton, List.reverse_concat, List.count_append]
    by_cases hc : c = '\n'
    · simp [after, next, hc, Nat.add_assoc]
    · simp [after, next, hc, Nat.add_comm]

theorem spanOf_after (before piece : List Char) : (origin.after before).spanOf piece = Span.at before piece := by
  rw [spanOf, ← after_append, after_origin, after_origin]
  rfl

end Position

/-! ## What is skipped -/

theorem isBlank_iff {c : Char} : isBlank c = true ↔ c ∈ [' ', '\t', '\r', '\n'] := by
  simp [isBlank, or_assoc]

theorem Trivia.mono {gap : List Char} (h : Trivia false gap) : Trivia true gap := by
  induction h with
  | nil => exact .nil
  | blank hc _ ih => exact .blank hc ih
  | comment hline _ ih => exact .comment hline ih
  | unended hfinal => cases hfinal

variable {p q : Position} {cs rest gap line : List Char}

theorem skipTrivia_comment (hline : '\n' ∉ line) (p : Position) (rest : List Char) :
    skipTrivia true p (line ++ rest) = skipTrivia true (p.after line) rest := by
  induction line generalizing p with
  | nil => rfl
  | cons c line ih =>
    rw [List.mem_cons, not_or] at hline
    have hc : (c != '\n') = true := by simpa using Ne.symm hline.1
    rw [List.cons_append, skipTrivia, if_pos rfl, hc, ih hline.2]
    rfl

/-- where no trivia starts, nothing is skipped -/
def Starts (rest : List Char) : Prop := ∀ c cs, rest = c :: cs → ¬ isBlank c ∧ c ≠ '#'

theorem skipTrivia_starts (h : Starts rest) (p : Position) : skipTrivia false p rest = (p, rest) := by
  cases rest with
  | nil => rfl
  | cons c cs =>
    obtain ⟨hblank, hcomment⟩ := h c cs rfl
    rw [skipTrivia, if_neg (by simp), if_neg hblank, if_neg hcomment]

/-- trivia is skipped, up to where none starts -/
theorem skipTrivia_trivia {final : Bool} (h : Trivia final gap) (hrest : Starts rest) (hfinal : final = true → rest = [])
    (p : Position) : skipTrivia false p (gap ++ rest) = (p.after gap, rest) := by
  induction h generalizing p with
  | nil => exact skipTrivia_starts hrest p
  | blank hc _ ih =>
    rw [List.cons_append, skipTrivia, if_neg (by simp), if_pos (isBlank_iff.2 hc), ih]
    rfl
  | @comment line gap hline _ ih =>
    rw [List.cons_append, skipTrivia, if_neg (by simp), if_neg (by decide), if_pos rfl, List.append_assoc,
      skipTrivia_comment hline, List.cons_append, skipTrivia, if_pos rfl]
    rw [show ('\n' != '\n') = false from rfl, ih]
    simp [Position.after]
  | @unended line h hline =>
    obtain rfl := hfinal h
    rw [List.cons_append, skipTrivia, if_neg (by simp), if_neg (by decide), if_pos rfl, skipTrivia_comment hline]
    rfl

/-- what is skipped is trivia, and none starts where the skipping ends -/
theorem exists_trivia {comment : Bool} (h : skipTrivia comment p cs = (q, rest)) :
    ∃ gap, cs = gap ++ rest ∧ q = p.after gap ∧ Starts rest ∧
      if comment then ∃ line, '\n' ∉ line ∧
        ((gap = line ∧ rest = []) ∨ ∃ later, gap = line ++ '\n' :: later ∧ Trivia rest.isEmpty later)
      else Trivia rest.isEmpty gap := by
  induction cs generalizing comment p with
  | nil =>
    cases h
    refine ⟨[], rfl, rfl, nofun, ?_⟩
    split
    · exact ⟨[], List.not_mem_nil, .inl ⟨rfl, rfl⟩⟩
    · exact .nil
  | cons c cs ih =>
    unfold skipTrivia at h
    split at h
    · rename_i hcomment
      subst hcomment
      obtain ⟨gap, rfl, rfl, hstarts, hgap⟩ := ih h
      refine ⟨c :: gap, rfl, rfl, hstarts, ?_⟩
      rw [if_pos rfl]
      by_cases hc : c = '\n'
      · subst hc
        exact ⟨[], List.not_mem_nil, .inr ⟨gap, rfl, hgap⟩⟩
      · rw [if_pos (by simpa using hc)] at hgap
        obtain ⟨line, hline, hgap⟩ := hgap
        refine ⟨c :: line, by simp [hline, Ne.symm hc], hgap.imp (fun hend => ⟨by rw [hend.1], hend.2⟩) ?_⟩
        rintro ⟨later, rfl, hlater⟩
        exact ⟨later, rfl, hlater⟩
    · rename_i hcomment
      rw [Bool.not_eq_true] at hcomment
      subst hcomment
      simp only [Bool.false_eq_true, if_false] at h ⊢
      split at h
      · rename_i hblank
        obtain ⟨gap, rfl, rfl, hstarts, hgap⟩ := ih h
        exact ⟨c :: gap, rfl, rfl, hstarts, .blank (isBlank_iff.1 hblank) hgap⟩
      · rename_i hblank
        split at h
        · rename_i hsign
          subst hsign
          obtain ⟨gap, rfl, rfl, hstarts, line, hline, hgap⟩ := ih h
          refine ⟨'#' :: gap, rfl, rfl, hstarts, ?_⟩
          rcases hgap with ⟨rfl, rfl⟩ | ⟨later, rfl, hlater⟩
          · exact .unended rfl hline
          · exact .comment hline hlater
        · rename_i hsign
          cases h
          refine ⟨[], rfl, rfl, ?_, .nil⟩
          rintro _ _ ⟨⟩
          exact ⟨hblank, hsign⟩

end ThreeMachines
