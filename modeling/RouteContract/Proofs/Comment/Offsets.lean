import Mathlib
import RouteContract.Comment.Directive
import RouteContract.Proofs.File.NormalForm
import RouteContract.Proofs.Literal.CursorReading

/-!
# Reading directives at offsets

A reader of a comment may keep the offset in bytes from which the text is still to be read, instead
of that text. `Offsets.parse` is the reader of directives in this form: it computes the offsets of
the marker, of the value and of the ends of lines from those of earlier searches, and cuts the text
there. Its cuts and its rounds are checked: it stops when a slice does not begin and end between
characters, and when a round does not move the offset forward.

Every offset it computes is the size of a beginning of the text, and a directive is not empty. So it
stops for none of these reasons, and finds the directives that the reader of the text left finds.
-/

namespace RouteContract.Directive.Offsets

/-- Why a reading stops without a result. -/
inductive Stop where
  /-- A slice does not begin and end between characters of the text, or ends before it begins. -/
  | outside
  /-- A round does not move the offset forward. -/
  | stuck
  /-- There are more rounds than were allowed. -/
  | exhausted
deriving DecidableEq, Repr

section Readers

variable (text : List Char)

/-- The text from an offset on. -/
def sliceFrom (start : ℕ) : Except Stop (List Char) :=
  (Text.dropBytes? start text).elim (.error .outside) .ok

/-- The text from an offset up to another. -/
def slice (start stop : ℕ) : Except Stop (List Char) :=
  (Text.slice? start stop text).elim (.error .outside) .ok

/-- Where a directive starts, its key, and where its value starts. -/
structure Found where
  start : ℕ
  key : List Char
  value : ℕ

/-- Read the key and the equals sign behind a marker. -/
def readKey (hash start : ℕ) : Except Stop (Option Found) := do
  let body ← sliceFrom text start
  let size := (Text.findByte? (fun c => !isKeyChar c) body).getD (Text.byteSize text - start)
  let written ← slice text start (start + size)
  let after ← sliceFrom text (start + size)
  let key := dropDots written
  let trimmed := after.dropWhile fun c => c = ' ' || c = '\t'
  let gap := Text.byteSize after - Text.byteSize trimmed
  if key = [] ∨ trimmed.head? ≠ some '=' then return none
  else return some ⟨hash, key, start + size + gap + 1⟩

/-- Try the markers at the offset of a number sign. -/
def tryMarkers (hash : ℕ) : List String → Except Stop (Option Found)
  | [] => .ok none
  | marker :: more => do
    let lead := '#' :: (marker.toList ++ ['.'])
    let tail ← sliceFrom text hash
    if lead.isPrefixOf tail then
      match ← readKey text hash (hash + Text.byteSize lead) with
      | some found => return some found
      | none => tryMarkers hash more
    else tryMarkers hash more

/-- The first directive behind an offset; each round goes on behind a number sign. -/
def searchFrom (markers : List String) : ℕ → ℕ → Except Stop (Option Found)
  | 0, _ => .error .exhausted
  | fuel + 1, search => do
    let tail ← sliceFrom text search
    match Text.findByte? (· = '#') tail with
    | none => return none
    | some i =>
      match ← tryMarkers text (search + i) markers with
      | some found => return some found
      | none => searchFrom markers fuel (search + i + 1)

/-- The offsets of the line feeds. -/
def lineFeeds : List ℕ := ((Text.charIndices 0 text).filter (·.2 = '\n')).map Prod.fst

/-- The ends of lines from one on, given the text behind it, and the end of the text. -/
def ends (behind : List Char) (lineEnd : ℕ) : List ℕ :=
  (lineEnd :: (((lineFeeds behind).map (lineEnd + ·)).drop 1 ++ [Text.byteSize text])).destutter
    (· ≠ ·)

/-- The literal up to the first possible end, with that end, or the error of the first line. -/
def firstLiteral (start lineEnd : ℕ) :
    Option Literal.Error → List ℕ → Except Stop (Except (Option Literal.Error) (Json × ℕ))
  | e, [] => .ok (.error e)
  | e, stop :: more => do
    let value ← slice text start stop
    match Literal.parse (String.ofList value) with
    | .ok v => return .ok (v, stop)
    | .error e' => firstLiteral start lineEnd (if stop = lineEnd then some e' else e) more

/-- The outcome of a directive that was found behind an offset, and the offset behind it. -/
def finish (offset : ℕ) (found : Found) : Except Stop (Except Unreadable Directive × ℕ) := do
  let start := offset + found.value
  let rest ← sliceFrom text start
  let lineEnd := (Text.findByte? (· = '\n') rest).elim (Text.byteSize text) (start + ·)
  let behind ← sliceFrom text lineEnd
  match ← firstLiteral text start lineEnd none (ends text behind lineEnd) with
  | .ok (value, stop) => return (.ok ⟨String.ofList found.key, value⟩, stop)
  | .error e =>
    let source ← slice text (offset + found.start) lineEnd
    return (.error ⟨Text.trim (String.ofList source), e⟩, lineEnd)

/-- Go on at an offset that lies behind the one before. -/
def forward (offset next : ℕ) : Except Stop ℕ :=
  if offset < next then .ok next else .error .stuck

/-- The directives behind an offset; the search for one is allowed a number of rounds. -/
def directivesFrom (markers : List String) (bound : ℕ) :
    ℕ → ℕ → Except Stop (List (Except Unreadable Directive))
  | 0, _ => .error .exhausted
  | fuel + 1, offset =>
    if offset < Text.byteSize text then do
      let tail ← sliceFrom text offset
      match ← searchFrom tail markers bound 0 with
      | none => return []
      | some found =>
        let (outcome, next) ← finish text offset found
        let next ← forward offset next
        let more ← directivesFrom markers bound fuel next
        return outcome :: more
    else .ok []

end Readers

/-- The directives of a comment, in order, those that cannot be read among them. -/
def parse (markers : List String) (comment : String) (fuel : ℕ) :
    Except Stop (List (Except Unreadable Directive)) :=
  directivesFrom (content comment.toList) markers fuel fuel 0

/-! ### Slices at the sizes of beginnings -/

section Slices

variable {text middle after : List Char} {start stop : ℕ} (before : List Char)

theorem sliceFrom_eq (h : text = before ++ after) (hstart : start = Text.byteSize before) :
    sliceFrom text start = .ok after := by
  rw [h, hstart, sliceFrom, Text.dropBytes?_append]
  rfl

theorem slice_eq (h : text = before ++ (middle ++ after)) (hstart : start = Text.byteSize before)
    (hstop : stop = start + Text.byteSize middle) : slice text start stop = .ok middle := by
  rw [hstop, h, hstart, slice, Text.slice?, if_pos (Nat.le_add_right _ _), Text.dropBytes?_append,
    Option.bind_some, Nat.add_sub_cancel_left, Text.takeBytes?_append]
  rfl

end Slices

/-! ### The search for a directive -/

/-- The offsets of a directive that stands at the end of a text. -/
def located (text : List Char) (o : Opening) : Found :=
  ⟨Text.byteSize text - Text.byteSize (o.head ++ o.rest), o.key,
    Text.byteSize text - Text.byteSize o.rest⟩

/-- The directive with a key and an equals sign behind its marker. -/
def keyed? (lead body : List Char) : Option Opening :=
  match (body.dropWhile isKeyChar).dropWhile (fun c => c = ' ' || c = '\t'),
      (dropDots (body.takeWhile isKeyChar)).isEmpty with
  | '=' :: rest, false =>
    some ⟨lead ++ body.takeWhile isKeyChar ++
      ((body.dropWhile isKeyChar).takeWhile fun c => c = ' ' || c = '\t') ++ ['='],
      dropDots (body.takeWhile isKeyChar), rest⟩
  | _, _ => none

theorem opening?_eq (cs : List Char) (marker : String) (more : List String) :
    opening? cs (marker :: more) =
      ((Text.afterPrefix? ('#' :: (marker.toList ++ ['.'])) cs).bind
        (keyed? ('#' :: (marker.toList ++ ['.'])))).or (opening? cs more) := by
  rw [opening?]
  cases Text.afterPrefix? ('#' :: (marker.toList ++ ['.'])) cs with
  | none => rfl
  | some body =>
    rw [Option.bind_some, keyed?]
    dsimp only
    generalize (body.dropWhile isKeyChar).dropWhile (fun c => c = ' ' || c = '\t') = trimmed
    cases trimmed with
    | nil => rfl
    | cons c rest =>
      by_cases hc : c = '='
      · subst hc
        cases (dropDots (body.takeWhile isKeyChar)).isEmpty <;> rfl
      · simp [hc]

/-- A directive is its head and the text behind it. -/
theorem keyed?_split {lead body : List Char} {o : Opening} (h : keyed? lead body = some o) :
    lead ++ body = o.head ++ o.rest ∧ o.head ≠ [] := by
  unfold keyed? at h
  split at h
  next rest hrest hkey =>
    cases h
    refine ⟨?_, by simp⟩
    have hafter := List.takeWhile_append_dropWhile (p := fun c => c = ' ' || c = '\t')
      (l := body.dropWhile isKeyChar)
    have hbody := List.takeWhile_append_dropWhile (p := isKeyChar) (l := body)
    rw [hrest] at hafter
    rw [← hafter] at hbody
    simpa using hbody.symm
  next => cases h

theorem opening?_split {cs : List Char} {markers : List String} {o : Opening}
    (h : opening? cs markers = some o) : cs = o.head ++ o.rest ∧ o.head ≠ [] := by
  induction markers with
  | nil => cases h
  | cons marker more ih =>
    rw [opening?_eq, Option.or_eq_some_iff] at h
    obtain h | ⟨-, h⟩ := h
    · obtain ⟨body, hbody, ho⟩ := Option.bind_eq_some_iff.1 h
      rw [Text.afterPrefix?_eq_some_iff.1 hbody]
      exact keyed?_split ho
    · exact ih h

/-- A key is read where the text left is read for it. -/
theorem readKey_eq (hash : ℕ) (lead before body : List Char) :
    readKey (before ++ body) hash (Text.byteSize before) =
      .ok ((keyed? lead body).map fun o =>
        ⟨hash, o.key, Text.byteSize (before ++ body) - Text.byteSize o.rest⟩) := by
  have hsplit := List.takeWhile_append_dropWhile (p := isKeyChar) (l := body)
  have hgap := List.takeWhile_append_dropWhile (p := fun c => c = ' ' || c = '\t')
    (l := body.dropWhile isKeyChar)
  have hbody : sliceFrom (before ++ body) (Text.byteSize before) = .ok body :=
    sliceFrom_eq before rfl rfl
  have hsize : Text.byteSize (before ++ body) - Text.byteSize before = Text.byteSize body := by
    rw [Text.byteSize_append, Nat.add_sub_cancel_left]
  have hwritten : slice (before ++ body) (Text.byteSize before)
      (Text.byteSize before + Text.byteSize (body.takeWhile isKeyChar)) =
      .ok (body.takeWhile isKeyChar) :=
    slice_eq before (by rw [hsplit]) rfl rfl
  have hbehind : sliceFrom (before ++ body)
      (Text.byteSize before + Text.byteSize (body.takeWhile isKeyChar)) =
      .ok (body.dropWhile isKeyChar) :=
    sliceFrom_eq (before ++ body.takeWhile isKeyChar) (by rw [List.append_assoc, hsplit])
      (Text.byteSize_append ..).symm
  simp only [readKey, hbody, hsize, Text.getD_findByte?, hwritten, hbehind, bind, Except.bind]
  rw [keyed?]
  split
  next hnone =>
    split
    next rest hrest hkey =>
      obtain hnokey | hnosign := hnone
      · rw [hnokey] at hkey
        cases hkey
      · rw [hrest] at hnosign
        exact absurd rfl hnosign
    next => rfl
  next hsome =>
    obtain ⟨hkey, hhead⟩ := not_or.1 hsome
    obtain ⟨rest, hrest⟩ := List.head?_eq_some_iff.1 (not_not.1 hhead)
    have hwhole := congrArg Text.byteSize hsplit
    have hend := congrArg Text.byteSize hgap
    have hsign : '='.utf8Size = 1 := rfl
    simp only [hrest, Text.byteSize_append, Text.byteSize_cons] at hwhole hend
    have hvalue : Text.byteSize before + Text.byteSize (body.takeWhile isKeyChar) +
        (Text.byteSize (body.dropWhile isKeyChar) - Text.byteSize ('=' :: rest)) + 1 =
        Text.byteSize (before ++ body) - Text.byteSize rest := by
      rw [Text.byteSize_append, Text.byteSize_cons]
      omega
    simp only [hrest, List.isEmpty_eq_false_iff.2 hkey, Option.map_some, hvalue]
    rfl

/-- The markers are tried where the text left is tried for them. -/
theorem tryMarkers_eq (before cs : List Char) (markers : List String) :
    tryMarkers (before ++ cs) (Text.byteSize before) markers =
      .ok ((opening? cs markers).map (located (before ++ cs))) := by
  induction markers with
  | nil => rfl
  | cons marker more ih =>
    rw [tryMarkers, opening?_eq, sliceFrom_eq before rfl rfl]
    dsimp only [bind, Except.bind]
    generalize '#' :: (marker.toList ++ ['.']) = lead
    cases hbody : Text.afterPrefix? lead cs with
    | none =>
      have hprefix : ¬ lead.isPrefixOf cs = true := by
        intro h
        obtain ⟨body, rfl⟩ := List.isPrefixOf_iff_prefix.1 h
        rw [Text.afterPrefix?_eq_some_iff.2 rfl] at hbody
        cases hbody
      rw [if_neg hprefix]
      exact ih
    | some body =>
      obtain rfl := Text.afterPrefix?_eq_some_iff.1 hbody
      have hkey := readKey_eq (Text.byteSize before) lead (before ++ lead) body
      rw [List.append_assoc, Text.byteSize_append] at hkey
      rw [if_pos (List.isPrefixOf_iff_prefix.2 ⟨body, rfl⟩), hkey, Option.bind_some]
      cases ho : keyed? lead body with
      | none => exact ih
      | some o =>
        have hsplit := congrArg Text.byteSize (keyed?_split ho).1
        have hstart : Text.byteSize before =
            Text.byteSize (before ++ (lead ++ body)) - Text.byteSize (o.head ++ o.rest) := by
          rw [← hsplit, Text.byteSize_append, Nat.add_sub_cancel]
        rw [Option.some_or, Option.map_some, Option.map_some, located, ← hstart]
        rfl

theorem find?_of_notMem {markers : List String} {cs : List Char} (h : '#' ∉ cs) :
    find? markers cs = none := by
  induction cs with
  | nil => rfl
  | cons c cs ih =>
    rw [List.mem_cons, not_or] at h
    rw [find?, if_neg (Ne.symm h.1), ih h.2]

theorem find?_append {markers : List String} {before : List Char} (h : '#' ∉ before)
    (cs : List Char) : find? markers (before ++ cs) = find? markers cs := by
  induction before with
  | nil => rfl
  | cons c before ih =>
    rw [List.mem_cons, not_or] at h
    rw [List.cons_append, find?, if_neg (Ne.symm h.1), ih h.2]

/-- A directive is found where the text left has one. -/
theorem searchFrom_eq (markers : List String) {before cs : List Char} {fuel : ℕ}
    (hfuel : cs.length < fuel) :
    searchFrom (before ++ cs) markers fuel (Text.byteSize before) =
      .ok ((find? markers cs).map (located (before ++ cs))) := by
  induction fuel generalizing before cs with
  | zero => omega
  | succ fuel ih =>
    rw [searchFrom, sliceFrom_eq before rfl rfl]
    dsimp only [bind, Except.bind]
    obtain hnone | ⟨front, more, hfront, rfl⟩ := Literal.cut_cases '#' cs
    · rw [Text.findByte?_of_notMem hnone, find?_of_notMem hnone]
      rfl
    · rw [Text.findByte?_cut hfront, find?_append hfront, find?, if_pos rfl]
      have hmarkers := tryMarkers_eq (before ++ front) ('#' :: more) markers
      rw [List.append_assoc, Text.byteSize_append] at hmarkers
      dsimp only
      rw [hmarkers]
      cases opening? ('#' :: more) markers with
      | some o => rfl
      | none =>
        have hnext := @ih (before ++ front ++ ['#']) more (by simp at hfuel; omega)
        have hsign : Text.byteSize ['#'] = 1 := rfl
        rw [Text.byteSize_append, Text.byteSize_append, hsign] at hnext
        simpa using hnext

/-! ### The ends of lines -/

/-- The offsets of the line feeds of a text and of its end, given the offset of its beginning. -/
def stops : ℕ → List Char → List ℕ
  | n, [] => [n]
  | n, c :: cs => if c = '\n' then n :: stops (n + c.utf8Size) cs else stops (n + c.utf8Size) cs

theorem lineFeeds_append_end (n : ℕ) (cs : List Char) :
    (lineFeeds cs).map (n + ·) ++ [n + Text.byteSize cs] = stops n cs := by
  have hshift : (lineFeeds cs).map (n + ·) =
      ((Text.charIndices n cs).filter (·.2 = '\n')).map Prod.fst := by
    rw [Text.charIndices_eq_map n, lineFeeds, List.filter_map, List.map_map, List.map_map]
    rfl
  rw [hshift]
  clear hshift
  induction cs generalizing n with
  | nil => rfl
  | cons c cs ih =>
    rw [Text.charIndices, stops, Text.byteSize_cons, ← Nat.add_assoc, ← ih (n + c.utf8Size)]
    by_cases hc : c = '\n' <;> simp [hc]

theorem le_of_mem_stops {n m : ℕ} {cs : List Char} (h : m ∈ stops n cs) : n ≤ m := by
  induction cs generalizing n with
  | nil => exact Nat.le_of_eq (List.mem_singleton.1 h).symm
  | cons c cs ih =>
    rw [stops] at h
    split at h
    next =>
      obtain rfl | h := List.mem_cons.1 h
      · exact Nat.le_refl _
      · exact (Nat.le_add_right _ _).trans (ih h)
    next => exact (Nat.le_add_right _ _).trans (ih h)

/-- The ends of lines come one behind the other. -/
theorem stops_pairwise (n : ℕ) (cs : List Char) : (stops n cs).Pairwise (· < ·) := by
  induction cs generalizing n with
  | nil => exact List.pairwise_singleton _ _
  | cons c cs ih =>
    rw [stops]
    split
    next =>
      refine List.pairwise_cons.2 ⟨fun m hm => ?_, ih _⟩
      have := le_of_mem_stops hm
      have := c.utf8Size_pos
      omega
    next => exact ih _

/-- A line goes up to the first line feed. -/
theorem lineOf_cases (cs : List Char) :
    ∃ line rest, '\n' ∉ line ∧ (rest = [] ∨ ∃ more, rest = '\n' :: more) ∧ cs = line ++ rest ∧
      lineOf cs = (line, rest) := by
  obtain hnone | ⟨line, more, hline, rfl⟩ := Literal.cut_cases '\n' cs
  · refine ⟨cs, [], hnone, .inl rfl, (List.append_nil cs).symm, ?_⟩
    rw [lineOf, Literal.takeWhile_of_notMem hnone, Literal.dropWhile_of_notMem hnone]
  · refine ⟨line, '\n' :: more, hline, .inr ⟨more, rfl⟩, rfl, ?_⟩
    rw [lineOf, Literal.takeWhile_cut hline, Literal.dropWhile_cut hline]

/-- The end of a line is found where it ends in the text left. -/
theorem lineEnd_eq (front cs : List Char) :
    (Text.findByte? (· = '\n') cs).elim (Text.byteSize (front ++ cs)) (Text.byteSize front + ·) =
      Text.byteSize front + Text.byteSize (lineOf cs).1 := by
  obtain ⟨line, rest, hline, rfl | ⟨more, rfl⟩, rfl, hlineOf⟩ := lineOf_cases cs
  · rw [List.append_nil] at hlineOf ⊢
    rw [hlineOf, Text.findByte?_of_notMem hline, Option.elim_none, Text.byteSize_append]
  · rw [hlineOf, Text.findByte?_cut hline, Option.elim_some]

/-- From the end of a line on, the ends of lines are tried that come behind it, each one once. -/
theorem ends_eq (before cs : List Char) (h : cs = [] ∨ ∃ more, cs = '\n' :: more) :
    ends (before ++ cs) cs (Text.byteSize before) = stops (Text.byteSize before) cs := by
  obtain rfl | ⟨more, rfl⟩ := h
  · rw [List.append_nil]
    simp [ends, lineFeeds, Text.charIndices, stops]
  · have hfeeds := lineFeeds_append_end (Text.byteSize before) ('\n' :: more)
    have hchain := (stops_pairwise (Text.byteSize before) ('\n' :: more)).isChain.imp
      fun _ _ => Nat.ne_of_lt
    obtain ⟨later, hlater⟩ : ∃ later, (lineFeeds ('\n' :: more)).map (Text.byteSize before + ·) =
        Text.byteSize before :: later := ⟨_, rfl⟩
    rw [← List.destutter_eq_self_iff] at hchain
    rw [← hchain, ← hfeeds, ends, hlater, Text.byteSize_append]
    rfl

/-! ### The value of a directive -/

theorem valueAt?_split {before cs after : List Char} {v : Json}
    (h : valueAt? before cs = some (v, after)) : ∃ front, cs = front ++ after := by
  induction cs generalizing before with
  | nil =>
    rw [valueAt?] at h
    split at h
    next =>
      cases h
      exact ⟨[], rfl⟩
    next => cases h
  | cons c cs ih =>
    have hnext : valueAt? (c :: before) cs = some (v, after) →
        ∃ front, c :: cs = front ++ after := by
      intro h
      obtain ⟨front, rfl⟩ := ih h
      exact ⟨c :: front, rfl⟩
    rw [valueAt?] at h
    split at h
    next =>
      split at h
      next =>
        cases h
        exact ⟨[], rfl⟩
      next => exact hnext h
    next => exact hnext h

theorem valueAt?_front {front : List Char} (h : '\n' ∉ front) (before cs : List Char) :
    valueAt? before (front ++ cs) = valueAt? (front.reverse ++ before) cs := by
  induction front generalizing before with
  | nil => rfl
  | cons c front ih =>
    rw [List.mem_cons, not_or] at h
    rw [List.cons_append, valueAt?, if_neg (Ne.symm h.1), ih h.2, List.reverse_cons,
      List.append_assoc, List.singleton_append]

/-- What is found at one of the ends, or the error of the line. -/
def endOf (text : List Char) (e : Option Literal.Error) :
    Option (Json × List Char) → Except (Option Literal.Error) (Json × ℕ)
  | some (v, after) => .ok (v, Text.byteSize text - Text.byteSize after)
  | none => .error e

theorem byteSize_sub (front middle after : List Char) :
    Text.byteSize (front ++ (middle ++ after)) - Text.byteSize after =
      Text.byteSize front + Text.byteSize middle := by
  simp only [Text.byteSize_append]
  omega

/-- At the first of the ends the text before it is a literal, or the next one is tried. -/
theorem firstLiteral_cons (front tried after : List Char) (lineEnd : ℕ) (e : Option Literal.Error)
    (more : List ℕ) :
    firstLiteral (front ++ (tried ++ after)) (Text.byteSize front) lineEnd e
        ((Text.byteSize front + Text.byteSize tried) :: more) =
      match Literal.parse (String.ofList tried) with
      | .ok v => .ok (endOf (front ++ (tried ++ after)) e (some (v, after)))
      | .error e' =>
        firstLiteral (front ++ (tried ++ after)) (Text.byteSize front) lineEnd
          (if Text.byteSize front + Text.byteSize tried = lineEnd then some e' else e) more := by
  rw [firstLiteral, slice_eq front rfl rfl rfl]
  dsimp only [bind, Except.bind, endOf]
  rw [byteSize_sub]
  cases Literal.parse (String.ofList tried) <;> rfl

/-- Behind the first line the ends are tried where the text left is, and its error is kept. -/
theorem firstLiteral_stops {before cs : List Char} (front : List Char) {lineEnd : ℕ}
    (e : Option Literal.Error)
    (hlater : lineEnd < Text.byteSize front + Text.byteSize before.reverse) :
    firstLiteral (front ++ (before.reverse ++ cs)) (Text.byteSize front) lineEnd e
        (stops (Text.byteSize front + Text.byteSize before.reverse) cs) =
      .ok (endOf (front ++ (before.reverse ++ cs)) e (valueAt? before cs)) := by
  induction cs generalizing before with
  | nil =>
    rw [stops, firstLiteral_cons, valueAt?]
    cases Literal.parse (String.ofList before.reverse) with
    | ok v => rfl
    | error e' =>
      dsimp only
      rw [if_neg (by omega)]
      rfl
  | cons c cs ih =>
    have hnext := @ih (c :: before) (by simp; omega)
    have hsize : Text.byteSize [c] = c.utf8Size := rfl
    simp only [List.reverse_cons, List.append_assoc, List.singleton_append, Text.byteSize_append,
      hsize, ← Nat.add_assoc] at hnext
    rw [stops, valueAt?]
    split
    next =>
      rw [firstLiteral_cons]
      cases Literal.parse (String.ofList before.reverse) with
      | ok v => rfl
      | error e' =>
        dsimp only
        rw [if_neg (by omega)]
        exact hnext
    next => exact hnext

/-- The ends from that of the first line on are tried where the text left is. -/
theorem firstLiteral_eq (front cs : List Char) :
    firstLiteral (front ++ cs) (Text.byteSize front)
        (Text.byteSize front + Text.byteSize (lineOf cs).1) none
        (ends (front ++ cs) (lineOf cs).2 (Text.byteSize front + Text.byteSize (lineOf cs).1)) =
      .ok (endOf (front ++ cs) (lineError cs) (valueAt? [] cs)) := by
  obtain ⟨line, rest, hline, hrest, rfl, hlineOf⟩ := lineOf_cases cs
  have hends := ends_eq (front ++ line) rest hrest
  rw [List.append_assoc, Text.byteSize_append] at hends
  rw [lineError, hlineOf, hends, valueAt?_front hline, List.append_nil]
  obtain rfl | ⟨more, rfl⟩ := hrest
  · rw [stops, firstLiteral_cons, valueAt?, List.reverse_reverse]
    cases Literal.parse (String.ofList line) with
    | ok v => rfl
    | error e =>
      dsimp only
      rw [if_pos rfl]
      rfl
  · rw [stops, if_pos rfl, firstLiteral_cons, valueAt?, if_pos rfl, List.reverse_reverse]
    cases Literal.parse (String.ofList line) with
    | ok v => rfl
    | error e =>
      have hfeed : Text.byteSize ['\n'] = '\n'.utf8Size := rfl
      have hlater := @firstLiteral_stops ('\n' :: line.reverse) more front
        (Text.byteSize front + Text.byteSize line) (some e) (by simp [hfeed]; decide)
      simp only [List.reverse_cons, List.reverse_reverse, List.append_assoc, List.singleton_append,
        Text.byteSize_append, hfeed, ← Nat.add_assoc] at hlater
      dsimp only
      rw [if_pos rfl]
      exact hlater

/-- The offsets of a directive are the sizes of what comes before it and before its value. -/
theorem located_append (front : List Char) (o : Opening) :
    located (front ++ (o.head ++ o.rest)) o =
      ⟨Text.byteSize front, o.key, Text.byteSize (front ++ o.head)⟩ := by
  rw [located, byteSize_sub, Text.byteSize_append front (o.head ++ o.rest), Nat.add_sub_cancel,
    Text.byteSize_append]

/-- A directive that was found is finished where the text left has it. -/
theorem finish_eq (before front : List Char) (o : Opening) :
    finish (before ++ (front ++ (o.head ++ o.rest))) (Text.byteSize before)
        (located (front ++ (o.head ++ o.rest)) o) =
      .ok (o.finish.1, Text.byteSize (before ++ (front ++ (o.head ++ o.rest))) -
        Text.byteSize o.finish.2) := by
  have hstart : Text.byteSize before + Text.byteSize (front ++ o.head) =
      Text.byteSize (before ++ front ++ o.head) := by
    simp only [Text.byteSize_append, Nat.add_assoc]
  have htext : before ++ (front ++ (o.head ++ o.rest)) = before ++ front ++ o.head ++ o.rest := by
    simp only [List.append_assoc]
  rw [located_append, finish, htext]
  dsimp only
  rw [hstart, sliceFrom_eq _ rfl rfl]
  dsimp only [bind, Except.bind]
  rw [lineEnd_eq]
  obtain ⟨line, rest, -, -, hcs, hlineOf⟩ := lineOf_cases o.rest
  have hbehind : sliceFrom (before ++ front ++ o.head ++ o.rest)
      (Text.byteSize (before ++ front ++ o.head) + Text.byteSize (lineOf o.rest).1) =
      .ok (lineOf o.rest).2 := by
    rw [hlineOf]
    exact sliceFrom_eq (before ++ front ++ o.head ++ line) (by rw [hcs, List.append_assoc _ line])
      (Text.byteSize_append ..).symm
  have hsource : slice (before ++ front ++ o.head ++ o.rest)
      (Text.byteSize before + Text.byteSize front)
      (Text.byteSize (before ++ front ++ o.head) + Text.byteSize (lineOf o.rest).1) =
      .ok (o.head ++ (lineOf o.rest).1) := by
    have hcut : before ++ front ++ o.head ++ o.rest =
        before ++ front ++ (o.head ++ line ++ rest) := by
      rw [hcs]
      simp only [List.append_assoc]
    rw [hlineOf]
    refine slice_eq (before ++ front) hcut (Text.byteSize_append ..).symm ?_
    simp only [Text.byteSize_append, Nat.add_assoc]
  rw [hbehind]
  dsimp only
  rw [firstLiteral_eq, Opening.finish]
  cases valueAt? [] o.rest with
  | some found => rfl
  | none =>
    have hend : Text.byteSize (before ++ front ++ o.head ++ o.rest) -
        Text.byteSize (lineOf o.rest).2 =
        Text.byteSize (before ++ front ++ o.head) + Text.byteSize (lineOf o.rest).1 := by
      have hsize := congrArg Text.byteSize hcs
      rw [hlineOf]
      simp only [Text.byteSize_append] at hsize ⊢
      omega
    dsimp only [endOf]
    rw [hsource, hend]
    rfl

/-! ### All directives of a comment -/

theorem find?_split {markers : List String} {cs : List Char} {o : Opening}
    (h : find? markers cs = some o) :
    o.head ≠ [] ∧ ∃ front, cs = front ++ (o.head ++ o.rest) := by
  induction cs with
  | nil => cases h
  | cons c cs ih =>
    have hnext : find? markers cs = some o →
        o.head ≠ [] ∧ ∃ front, c :: cs = front ++ (o.head ++ o.rest) := by
      intro h
      obtain ⟨hne, front, rfl⟩ := ih h
      exact ⟨hne, c :: front, rfl⟩
    rw [find?] at h
    split at h
    next =>
      split at h
      next ho =>
        cases h
        obtain ⟨hcs, hne⟩ := opening?_split ho
        exact ⟨hne, [], hcs⟩
      next => exact hnext h
    next => exact hnext h

/-- The text after a directive is the end of the text after its equals sign. -/
theorem finish_split (o : Opening) : ∃ front, o.rest = front ++ o.finish.2 := by
  rw [Opening.finish]
  cases h : valueAt? [] o.rest with
  | some found => exact valueAt?_split h
  | none =>
    obtain ⟨line, rest, -, -, hcs, hlineOf⟩ := lineOf_cases o.rest
    rw [hlineOf]
    exact ⟨line, hcs⟩

theorem byteSize_pos {cs : List Char} (h : cs ≠ []) : 0 < Text.byteSize cs :=
  (List.length_pos_iff.2 h).trans_le (Text.length_le_byteSize cs)

theorem scan_nil (markers : List String) (n : ℕ) : scan markers n [] = [] := by
  cases n <;> rfl

/-- The directives are found that the text left has; each round starts behind the one before. -/
theorem directivesFrom_eq (markers : List String) {before cs : List Char} {bound fuel n : ℕ}
    (hbound : cs.length < bound) (hfuel : cs.length < fuel) (hn : cs.length ≤ n) :
    directivesFrom (before ++ cs) markers bound fuel (Text.byteSize before) =
      .ok (scan markers n cs) := by
  induction fuel generalizing before cs n with
  | zero => omega
  | succ fuel ih =>
    rw [directivesFrom]
    by_cases hnil : cs = []
    · rw [hnil, List.append_nil, if_neg (lt_irrefl _), scan_nil]
    have hpos := List.length_pos_iff.2 hnil
    obtain ⟨n, rfl⟩ : ∃ m, n = m + 1 := ⟨n - 1, by omega⟩
    have hinside : Text.byteSize before < Text.byteSize (before ++ cs) := by
      rw [Text.byteSize_append]
      exact Nat.lt_add_of_pos_right (byteSize_pos hnil)
    have hsearch : searchFrom cs markers bound 0 = .ok ((find? markers cs).map (located cs)) :=
      @searchFrom_eq markers [] cs bound hbound
    rw [if_pos hinside, sliceFrom_eq before rfl rfl, scan]
    dsimp only [bind, Except.bind]
    rw [hsearch]
    cases ho : find? markers cs with
    | none => rfl
    | some o =>
      obtain ⟨hne, front, rfl⟩ := find?_split ho
      obtain ⟨middle, hrest⟩ := finish_split o
      have hcut : before ++ (front ++ (o.head ++ o.rest)) =
          before ++ front ++ o.head ++ middle ++ o.finish.2 := by
        simp only [hrest, List.append_assoc]
      have hnext : Text.byteSize (before ++ (front ++ (o.head ++ o.rest))) -
          Text.byteSize o.finish.2 = Text.byteSize (before ++ front ++ o.head ++ middle) := by
        rw [hcut, Text.byteSize_append, Nat.add_sub_cancel]
      have hforward : forward (Text.byteSize before)
          (Text.byteSize (before ++ front ++ o.head ++ middle)) =
          .ok (Text.byteSize (before ++ front ++ o.head ++ middle)) := by
        have := byteSize_pos hne
        refine if_pos ?_
        simp only [Text.byteSize_append]
        omega
      have hshorter : o.finish.2.length < (front ++ (o.head ++ o.rest)).length := by
        have := List.length_pos_iff.2 hne
        have hlength := congrArg List.length hrest
        simp only [List.length_append] at hlength ⊢
        omega
      have hmore := @ih (before ++ front ++ o.head ++ middle) o.finish.2 n (by omega) (by omega)
        (by omega)
      dsimp only [Option.map_some]
      rw [finish_eq]
      dsimp only
      rw [hnext, hforward]
      dsimp only
      rw [hcut, hmore]
      rfl

/-- With more rounds than the text has bytes allowed, reading at offsets is reading the text
left. -/
theorem parse_eq (markers : List String) (comment : String) {fuel : ℕ}
    (hfuel : Text.byteSize (content comment.toList) < fuel) :
    parse markers comment fuel = .ok (Directive.parse markers comment) := by
  have hlength := (Text.length_le_byteSize (content comment.toList)).trans_lt hfuel
  exact @directivesFrom_eq markers [] _ _ _ _ hlength hlength (Nat.le_refl _)

/-! ### The two readers -/

/-- Reading a literal with a cursor ends, with its value or with a fault whose offset is the size of
a beginning of the text: the cursor is never moved behind the last character, and no whole number is
larger than 64 bits, before or after its sign is changed. Reading the directives of a comment at
offsets ends, too: each round moves its offset forward, and each slice lies between characters. Both
give what the readers of the text left give. -/
theorem readers_stay_inside (text comment : String) (markers : List String) (more : ℕ) :
    ((∃ v, Literal.Cursor.parse text.toList (2 * text.toList.length + 4 + more) = .ok v ∧
        Literal.parse text = .ok v) ∨
      ∃ fault before after, text.toList = before ++ after ∧
        Literal.Cursor.parse text.toList (2 * text.toList.length + 4 + more) =
          .error (.fault ⟨fault, Text.byteSize before⟩) ∧
        Literal.parse text = .error ⟨fault, Text.byteSize before⟩) ∧
    parse markers comment (Text.byteSize (content comment.toList) + 1 + more) =
      .ok (Directive.parse markers comment) := by
  have hcursor := Literal.Cursor.parse_eq text (Nat.le_add_right (2 * text.toList.length + 4) more)
  refine ⟨?_, parse_eq markers comment (by omega)⟩
  cases hparse : Literal.parse text with
  | ok v =>
    rw [hparse] at hcursor
    exact .inl ⟨v, hcursor, rfl⟩
  | error e =>
    obtain ⟨before, after, htext, hposition⟩ := Literal.Cursor.exists_before_of_parse hparse
    obtain ⟨fault, position⟩ := e
    subst hposition
    rw [hparse] at hcursor
    exact .inr ⟨fault, before, after, htext, hcursor, rfl⟩

end RouteContract.Directive.Offsets
