import Mathlib
import RouteContract.Proofs.Literal.Reading

/-!
# The texts that are data literals

A text is read exactly when the grammar derives it, as what the derivation denotes
(`parse_ok_iff`). Nothing in such a text would have to be evaluated: outside of strings and
comments there are numbers, the four words, keys with their colons, brackets, commas and
semicolons, and nothing else (`OnlyData`).
-/

namespace RouteContract.Literal

/-- Text that is cut into trivia, strings, numbers, words, keys with a colon, and punctuation. A
number or a word is cut off where it ends. -/
inductive OnlyData : List Char → Prop
  | last {t : List Char} (ht : LastTrivia t) : OnlyData t
  | trivia {t cs : List Char} (ht : Trivia t) (h : OnlyData cs) : OnlyData (t ++ cs)
  | mark {c : Char} {cs : List Char} (hc : c ∈ ['[', ']', '{', '}', ',', ';']) (h : OnlyData cs) :
    OnlyData (c :: cs)
  | string {w cs : List Char} {s : String} (hw : Quoted w s) (h : OnlyData cs) : OnlyData (w ++ cs)
  | number {w cs : List Char} {n : Number} (hw : Numeral w n) (hcs : Ends cs) (h : OnlyData cs) :
    OnlyData (w ++ cs)
  | word {w cs : List Char} {v : Json} (hw : Word w v) (hcs : Ends cs) (h : OnlyData cs) :
    OnlyData (w ++ cs)
  | key {w t cs : List Char} {name : String} (hw : Key w name) (ht : Trivia t) (h : OnlyData cs) :
    OnlyData (w ++ (t ++ ':' :: cs))

/-- Text that may stand in front of other data. -/
def BeforeData (w : List Char) : Prop :=
  ∀ rest, Ends rest → OnlyData rest → OnlyData (w ++ rest)

theorem BeforeData.bracketed {opening closing : Char} {w : List Char} (h : BeforeData w)
    (hopening : opening ∈ ['[', '{']) (hclosing : closing ∈ [']', '}']) :
    BeforeData (opening :: (w ++ [closing])) := by
  intro rest _ hdata
  have hrest : OnlyData (closing :: rest) := .mark (by fin_cases hclosing <;> decide) hdata
  have hends : Ends (closing :: rest) := ends_mark (by fin_cases hclosing <;> decide) rest
  have := OnlyData.mark (c := opening) (by fin_cases hopening <;> decide) (h _ hends hrest)
  simpa using this

theorem BeforeData.comma {w ws : List Char} (h : BeforeData w) (hs : BeforeData ws) :
    BeforeData (w ++ ',' :: ws) := by
  intro rest hends hdata
  have := h _ (ends_mark (c := ',') (by decide) _) (.mark (by decide) (hs rest hends hdata))
  simpa using this

mutual

theorem Value.beforeData {w : List Char} {v : Json} : Value w v → BeforeData w
  | .word h => fun _ hends hdata => .word h hends hdata
  | .string h => fun _ _ hdata => .string h hdata
  | .number h => fun _ hends hdata => .number h hends hdata
  | .array h => h.beforeData.bracketed (by decide) (by decide)
  | .object h => h.beforeData.bracketed (by decide) (by decide)

theorem Item.beforeData {w : List Char} {v : Json} : Item w v → BeforeData w
  | .mk ht hv ht' => fun rest hends hdata => by
    have := OnlyData.trivia ht (hv.beforeData _ (hends.trivia ht') (.trivia ht' hdata))
    simpa using this

theorem Items.beforeData {w : List Char} {vs : List Json} : Items w vs → BeforeData w
  | .none ht => fun _ _ hdata => .trivia ht hdata
  | .last h => h.beforeData
  | .more h hs => h.beforeData.comma hs.beforeData

theorem Field.beforeData {w : List Char} {entry : String × Json} : Field w entry → BeforeData w
  | .mk ht hkey ht' h => fun rest hends hdata => by
    have := OnlyData.trivia ht (.key hkey ht' (h.beforeData rest hends hdata))
    simpa using this

theorem Fields.beforeData {w : List Char} {entries : List (String × Json)} :
    Fields w entries → BeforeData w
  | .none ht => fun _ _ hdata => .trivia ht hdata
  | .last h => h.beforeData
  | .more h hs => h.beforeData.comma hs.beforeData

end

theorem Whole.onlyData {cs : List Char} {v : Json} (h : Whole cs v) : OnlyData cs := by
  cases h with
  | plain ht hv ht' => exact .trivia ht (hv.beforeData _ (Ends.lastTrivia ht') (.last ht'))
  | semicolon h ht =>
    exact h.beforeData _ (ends_mark (c := ';') (by decide) _) (.mark (by decide) (.last ht))

/-- Exactly the texts of the grammar are read, each as what it denotes, and they hold data only. -/
theorem parse_ok_iff (s : String) :
    (∀ v, parse s = .ok v ↔ Whole s.toList v) ∧
      ((parse s).isOk = true → OnlyData s.toList) := by
  have hiff : ∀ v, parse s = .ok v ↔ Whole s.toList v := fun v =>
    parse_eq_ok.trans ⟨whole_of_whole, Whole.whole⟩
  refine ⟨hiff, fun hok => ?_⟩
  cases hparse : parse s with
  | error e =>
    rw [hparse] at hok
    cases hok
  | ok v => exact ((hiff v).1 hparse).onlyData

theorem parse_ok_iff_object :
    (parse "\x7ba: [1, 'x',], /* n */ 0x1F: true\x7d; // end").isOk = true ∧
      OnlyData "\x7ba: [1, 'x',], /* n */ 0x1F: true\x7d; // end".toList :=
  have hok : (parse "\x7ba: [1, 'x',], /* n */ 0x1F: true\x7d; // end").isOk = true := by cbv
  ⟨hok, (parse_ok_iff _).2 hok⟩

end RouteContract.Literal
