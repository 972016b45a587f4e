import Mathlib
import RouteContract.Text.Basic

/-!
# Offsets in bytes

A text is cut at a number of bytes, in UTF-8, when a character starts there, or the text ends. At
another number there is no cut. The cuts of a text that is put together from pieces, at their sizes,
are the pieces. The offset of a character is the size of the text before it (`charIndices`), so the
first character of a kind is found where the text without such characters ends.
-/

namespace RouteContract.Text

/-- The text behind a number of bytes, unless they end beyond the text or within a character. -/
def dropBytes? : Nat → List Char → Option (List Char)
  | 0, cs => some cs
  | _ + 1, [] => none
  | n + 1, c :: cs => if c.utf8Size ≤ n + 1 then dropBytes? (n + 1 - c.utf8Size) cs else none

/-- The text of a number of bytes, unless they end beyond the text or within a character. -/
def takeBytes? : Nat → List Char → Option (List Char)
  | 0, _ => some []
  | _ + 1, [] => none
  | n + 1, c :: cs =>
    if c.utf8Size ≤ n + 1 then (takeBytes? (n + 1 - c.utf8Size) cs).map (c :: ·) else none

/-- The text from one byte up to another, if that is one. -/
def slice? (start stop : Nat) (cs : List Char) : Option (List Char) :=
  if start ≤ stop then (dropBytes? start cs).bind (takeBytes? (stop - start)) else none

/-- The characters of a text with their offsets, the first one at the given offset. -/
def charIndices : Nat → List Char → List (Nat × Char)
  | _, [] => []
  | offset, c :: cs => (offset, c) :: charIndices (offset + c.utf8Size) cs

/-- The offset of the first character of a kind. -/
def findByte? (p : Char → Bool) (cs : List Char) : Option Nat :=
  ((charIndices 0 cs).find? fun i => p i.2).map Prod.fst

@[simp] theorem byteSize_cons (c : Char) (cs : List Char) :
    byteSize (c :: cs) = c.utf8Size + byteSize cs := rfl

@[simp] theorem byteSize_append (cs ds : List Char) :
    byteSize (cs ++ ds) = byteSize cs + byteSize ds := by
  rw [byteSize, List.map_append, total_append, byteSize, byteSize]

theorem dropBytes?_append (cs ds : List Char) : dropBytes? (byteSize cs) (cs ++ ds) = some ds := by
  induction cs with
  | nil => cases ds <;> rfl
  | cons c cs ih =>
    obtain ⟨n, hn⟩ : ∃ n, byteSize (c :: cs) = n + 1 :=
      Nat.exists_eq_add_one_of_ne_zero (by have := c.utf8Size_pos; simp; omega)
    have hrest : n + 1 - c.utf8Size = byteSize cs := by simp at hn; omega
    rw [hn, List.cons_append, dropBytes?, if_pos (by simp at hn; omega), hrest, ih]

theorem takeBytes?_append (cs ds : List Char) : takeBytes? (byteSize cs) (cs ++ ds) = some cs := by
  induction cs with
  | nil => cases ds <;> rfl
  | cons c cs ih =>
    obtain ⟨n, hn⟩ : ∃ n, byteSize (c :: cs) = n + 1 :=
      Nat.exists_eq_add_one_of_ne_zero (by have := c.utf8Size_pos; simp; omega)
    have hrest : n + 1 - c.utf8Size = byteSize cs := by simp at hn; omega
    rw [hn, List.cons_append, takeBytes?, if_pos (by simp at hn; omega), hrest, ih, Option.map_some]

/-- What stands between a beginning and an end is cut out by their numbers of bytes. -/
theorem slice?_append (before middle after : List Char) :
    slice? (byteSize before) (byteSize (before ++ middle ++ after) - byteSize after)
      (before ++ middle ++ after) = some middle := by
  have hstop : byteSize (before ++ middle ++ after) - byteSize after =
      byteSize before + byteSize middle := by
    rw [byteSize_append, byteSize_append, Nat.add_sub_cancel]
  rw [hstop, slice?, if_pos (Nat.le_add_right _ _), List.append_assoc, dropBytes?_append,
    Nat.add_sub_cancel_left, Option.bind_some, takeBytes?_append]

/-- A beginning and an end that are together no longer than a text do not overlap in it. -/
theorem exists_middle {before after cs : List Char} (hb : before <+: cs) (ha : after <:+ cs)
    (hlength : byteSize before + byteSize after ≤ byteSize cs) :
    ∃ middle, cs = before ++ middle ++ after := by
  obtain ⟨rest, rfl⟩ := hb
  obtain ⟨front, hfront⟩ := ha
  rw [byteSize_append, Nat.add_le_add_iff_left] at hlength
  rcases List.append_eq_append_iff.1 hfront with ⟨middle, hbefore, hafter⟩ | ⟨middle, hf, hrest⟩
  · -- the end would start before the rest, and so be longer
    rw [hafter, byteSize_append] at hlength
    have hmiddle : middle = [] := by
      cases middle with
      | nil => rfl
      | cons c middle =>
        have := c.utf8Size_pos
        rw [byteSize_cons] at hlength
        omega
    exact ⟨[], by rw [hafter, hmiddle, List.nil_append, List.append_nil]⟩
  · exact ⟨middle, by rw [hrest, List.append_assoc]⟩

theorem length_le_byteSize (cs : List Char) : cs.length ≤ byteSize cs := by
  induction cs with
  | nil => exact Nat.le_refl 0
  | cons c cs ih =>
    have := c.utf8Size_pos
    rw [List.length_cons, byteSize_cons]
    omega

/-! ### Offsets of characters -/

theorem charIndices_getElem? (offset : Nat) (cs : List Char) (pos : Nat) :
    (charIndices offset cs)[pos]?.map Prod.fst =
      if pos < cs.length then some (offset + byteSize (cs.take pos)) else none := by
  induction cs generalizing offset pos with
  | nil => rfl
  | cons c cs ih =>
    cases pos with
    | zero => rfl
    | succ pos =>
      rw [charIndices, List.getElem?_cons_succ, ih, List.length_cons, List.take_succ_cons,
        byteSize_cons]
      split <;> split <;> first | omega | simp [Nat.add_assoc]

/-- Offsets are counted from the offset of the first character. -/
theorem charIndices_eq_map (offset : Nat) (cs : List Char) :
    charIndices offset cs = (charIndices 0 cs).map fun i => (offset + i.1, i.2) := by
  induction cs generalizing offset with
  | nil => rfl
  | cons c cs ih =>
    rw [charIndices, charIndices, List.map_cons, ih, ih (0 + c.utf8Size), List.map_map]
    simp [Function.comp_def, Nat.add_assoc]

/-- The first character of a kind comes after those that are not of the kind. -/
theorem find?_charIndices (p : Char → Bool) (offset : Nat) (cs : List Char) :
    ((charIndices offset cs).find? fun i => p i.2).map Prod.fst =
      if cs.any p then some (offset + byteSize (cs.takeWhile fun c => !p c)) else none := by
  induction cs generalizing offset with
  | nil => rfl
  | cons c cs ih =>
    rw [charIndices, List.any_cons]
    cases hc : p c with
    | true => simp [hc, byteSize]
    | false => simp [hc, ih, Nat.add_assoc]

theorem findByte?_eq (p : Char → Bool) (cs : List Char) :
    findByte? p cs = if cs.any p then some (byteSize (cs.takeWhile fun c => !p c)) else none := by
  rw [findByte?, find?_charIndices, Nat.zero_add]

theorem findByte?_of_notMem {c : Char} {cs : List Char} (h : c ∉ cs) :
    findByte? (· = c) cs = none := by
  rw [findByte?_eq, if_neg]
  simpa using h

theorem findByte?_cut {c : Char} {before : List Char} (h : c ∉ before) (after : List Char) :
    findByte? (· = c) (before ++ c :: after) = some (byteSize before) := by
  have hbefore : ∀ d ∈ before, (!decide (d = c)) = true := by
    intro d hd
    have hne : d ≠ c := fun e => h (e ▸ hd)
    simpa using hne
  rw [findByte?_eq, if_pos (by simp), List.takeWhile_append_of_pos hbefore,
    List.takeWhile_cons_of_neg (by simp), List.append_nil]

/-- Without a character of the kind, the end of the text is taken. -/
theorem getD_findByte? (p : Char → Bool) (cs : List Char) :
    (findByte? (fun c => !p c) cs).getD (byteSize cs) = byteSize (cs.takeWhile p) := by
  rw [findByte?_eq]
  split
  next => simp
  next h =>
    have hall : ∀ c ∈ cs, p c = true := by simpa using h
    rw [Option.getD_none, List.takeWhile_eq_self_iff.2 hall]

end RouteContract.Text
