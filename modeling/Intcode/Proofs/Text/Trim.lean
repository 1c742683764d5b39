import Mathlib.Data.List.TakeWhile
import Intcode.Text.Blank

/-!
# Trimming

A text consists of blanks, what is left of it when it is trimmed, and blanks again; and what is left
neither begins nor ends with a blank. That determines it (`trim_eq_iff`), so blanks at the ends of a
text never matter to what is left of it.
-/

namespace Intcode.Text

variable {cs body left right : List Char}

/-- Nothing but blanks. -/
def AllBlank (cs : List Char) : Prop :=
  ∀ c ∈ cs, isBlank c = true

/-- Neither the first character nor the last is a blank. -/
structure BlankFree (cs : List Char) : Prop where
  head : ∀ c ∈ cs.head?, isBlank c = false
  getLast : ∀ c ∈ cs.getLast?, isBlank c = false

theorem AllBlank.reverse (h : AllBlank cs) : AllBlank cs.reverse :=
  fun c hc => h c (List.mem_reverse.mp hc)

/-- What is left of a text does not begin with what was dropped. -/
theorem head?_dropWhile_isBlank (cs : List Char) :
    ∀ c ∈ (cs.dropWhile isBlank).head?, isBlank c = false := by
  intro c hc
  have hnot := List.head?_dropWhile_not isBlank cs
  rw [Option.mem_def.mp hc] at hnot
  exact hnot

/-- A text that does not begin with a blank loses nothing at its front. -/
theorem dropWhile_isBlank_of_head (h : ∀ c ∈ cs.head?, isBlank c = false) :
    cs.dropWhile isBlank = cs := by
  cases cs with
  | nil => rfl
  | cons c cs => rw [List.dropWhile_cons, h c rfl, if_neg Bool.false_ne_true]

/-- A text is blanks, what is left of it, and blanks. -/
theorem exists_eq_append_trim (cs : List Char) :
    ∃ left right, cs = left ++ trim cs ++ right ∧ AllBlank left ∧ AllBlank right := by
  let rest := cs.dropWhile isBlank
  have hleft : cs.takeWhile isBlank ++ rest = cs := List.takeWhile_append_dropWhile
  have hright : rest.reverse.takeWhile isBlank ++ rest.reverse.dropWhile isBlank = rest.reverse :=
    List.takeWhile_append_dropWhile
  have hrest : trim cs ++ (rest.reverse.takeWhile isBlank).reverse = rest := by
    rw [trim, ← List.reverse_append, hright, List.reverse_reverse]
  have hblank (cs : List Char) : AllBlank (cs.takeWhile isBlank) := fun c hc => List.mem_takeWhile_imp hc
  refine ⟨cs.takeWhile isBlank, (rest.reverse.takeWhile isBlank).reverse, ?_, hblank cs,
    (hblank rest.reverse).reverse⟩
  rw [List.append_assoc, hrest, hleft]

/-- What is left of a text neither begins nor ends with a blank. -/
theorem blankFree_trim (cs : List Char) : BlankFree (trim cs) := by
  constructor
  · intro c hc
    rcases htrim : trim cs with _ | ⟨d, ds⟩
    · rw [htrim] at hc
      cases hc
    · -- it is the beginning of what is left when the front is trimmed
      have hprefix : trim cs <+: cs.dropWhile isBlank := by
        rw [trim, ← List.reverse_suffix, List.reverse_reverse]
        exact List.dropWhile_suffix isBlank
      obtain ⟨tail, htail⟩ := hprefix
      refine head?_dropWhile_isBlank cs c ?_
      rw [← htail, htrim, List.cons_append]
      rw [htrim] at hc
      exact hc
  · intro c hc
    rw [trim, List.getLast?_reverse] at hc
    exact head?_dropWhile_isBlank _ c hc

/-- Trimming drops the blanks around a text that has none at its own ends. -/
theorem trim_append_append (h : BlankFree body) (hleft : AllBlank left) (hright : AllBlank right) :
    trim (left ++ body ++ right) = body := by
  rw [trim, List.append_assoc, List.dropWhile_append_of_pos hleft]
  rcases body with _ | ⟨c, cs⟩
  · rw [List.nil_append, List.dropWhile_eq_nil_iff.mpr hright]
    rfl
  · have hfront : (c :: cs ++ right).dropWhile isBlank = c :: cs ++ right :=
      dropWhile_isBlank_of_head h.head
    have hback : ∀ d ∈ (c :: cs).reverse.head?, isBlank d = false := by
      rw [List.head?_reverse]
      exact h.getLast
    rw [hfront, List.reverse_append, List.dropWhile_append_of_pos hright.reverse,
      dropWhile_isBlank_of_head hback, List.reverse_reverse]

/-- What is left of a text is what stands between the blanks at its ends. -/
theorem trim_eq_iff :
    trim cs = body ↔
      BlankFree body ∧ ∃ left right, cs = left ++ body ++ right ∧ AllBlank left ∧ AllBlank right := by
  constructor
  · rintro rfl
    exact ⟨blankFree_trim cs, exists_eq_append_trim cs⟩
  · rintro ⟨hbody, left, right, rfl, hleft, hright⟩
    exact trim_append_append hbody hleft hright

@[simp] theorem trim_trim (cs : List Char) : trim (trim cs) = trim cs := by
  have hnone : AllBlank [] := fun _ hc => absurd hc List.not_mem_nil
  have htrim := trim_append_append (blankFree_trim cs) hnone hnone
  rwa [List.nil_append, List.append_nil] at htrim

/-- Nothing is left of blanks. -/
theorem trim_of_allBlank (h : AllBlank cs) : trim cs = [] := by
  rw [trim, List.dropWhile_eq_nil_iff.mpr h]
  rfl

/-- Blanks in front do not matter. -/
theorem trim_append_left (hleft : AllBlank left) (cs : List Char) : trim (left ++ cs) = trim cs := by
  rw [trim, List.dropWhile_append_of_pos hleft, trim]

/-- Blanks behind do not matter. -/
theorem trim_append_right (cs : List Char) (hright : AllBlank right) :
    trim (cs ++ right) = trim cs := by
  obtain ⟨left, right', hcs, hleft, hright'⟩ := exists_eq_append_trim cs
  have hblank : AllBlank (right' ++ right) := by
    intro c hc
    exact (List.mem_append.mp hc).elim (hright' c) (hright c)
  refine trim_eq_iff.mpr ⟨blankFree_trim cs, left, right' ++ right, ?_, hleft, hblank⟩
  rw [← List.append_assoc, ← hcs]

end Intcode.Text
