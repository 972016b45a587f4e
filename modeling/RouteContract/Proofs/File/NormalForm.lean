import Mathlib
import RouteContract.File.PathName
import RouteContract.Proofs.Route.Path

/-!
# Path names in normal form

A path in normal form is a row of names, behind the root or not, and behind at most one `..`. Every
path is normalized to such a row (`exists_normalForm`). The text of such a path is the text in front
of its last piece and that piece (`exists_front`, `text_snoc`): what a loader does to the text,
where it puts a file name in a directory or another end to the last name, is done to the row.
-/

namespace RouteContract

namespace Text

/-- What follows a beginning is the rest of the text. -/
theorem afterPrefix?_eq_some_iff {pattern cs rest : List Char} :
    afterPrefix? pattern cs = some rest ↔ cs = pattern ++ rest := by
  fun_induction afterPrefix? pattern cs with
  | case1 cs => simp
  | case2 p ps cs ih => simp [ih]
  | case3 p ps c cs hne =>
    constructor
    · intro h
      cases h
    · intro h
      exact absurd (List.cons.inj h).1.symm hne
  | case4 => simp

/-- What precedes an end is the text before it. -/
theorem beforeSuffix?_eq_some_iff {suffix cs before : List Char} :
    beforeSuffix? suffix cs = some before ↔ cs = before ++ suffix := by
  unfold beforeSuffix?
  rw [Option.map_eq_some_iff]
  constructor
  · rintro ⟨rest, hrest, rfl⟩
    have h := congrArg List.reverse (afterPrefix?_eq_some_iff.1 hrest)
    simpa using h
  · rintro rfl
    exact ⟨before.reverse, afterPrefix?_eq_some_iff.2 (by simp), by simp⟩

end Text

namespace PathName

/-- A piece between slashes that stands for a name. -/
structure IsName (piece : List Char) : Prop where
  ne_nil : piece ≠ []
  ne_dot : piece ≠ ['.']
  ne_dots : piece ≠ ['.', '.']
  slash : '/' ∉ piece

/-- A path in normal form: names, behind the root or not, and behind at most one `..`. -/
structure NormalForm where
  rooted : Bool
  climbs : Bool
  names : List (List Char)
  isName : ∀ name ∈ names, IsName name

/-! ### The pieces of a path -/

theorem isName_of_ofPiece {piece text : List Char} (hslash : '/' ∉ piece)
    (h : ofPiece piece = some (.name text)) : IsName text := by
  unfold ofPiece at h
  split at h
  · cases h
  split at h
  · cases h
  split at h
  · cases h
  next hnil hdot hdots =>
    cases h
    exact ⟨hnil, hdot, hdots, hslash⟩

theorem ofPiece_ne_root (piece : List Char) : ofPiece piece ≠ some .root := by
  unfold ofPiece
  split_ifs <;> simp

/-- Behind the root of an absolute path stand names, `.` and `..` only. -/
theorem exists_components (path : List Char) :
    ∃ rest, components path = (if isAbsolute path then [.root] else []) ++ rest ∧
      ∀ c ∈ rest, c ≠ .root ∧ ∀ text, c = .name text → IsName text := by
  have hpieces : ∀ c ∈ (Text.splitChars '/' path).filterMap ofPiece,
      c ≠ .root ∧ ∀ text, c = .name text → IsName text := by
    intro c hc
    obtain ⟨piece, hpiece, hof⟩ := List.mem_filterMap.1 hc
    refine ⟨?_, ?_⟩
    · rintro rfl
      exact ofPiece_ne_root piece hof
    · rintro text rfl
      exact isName_of_ofPiece (fun hslash => (Text.mem_piece hpiece _ hslash).2 rfl) hof
  unfold components
  dsimp only
  split
  · exact ⟨_, rfl, fun c hc => hpieces c (List.mem_of_mem_filter hc)⟩
  · split
    · exact ⟨[], rfl, by simp⟩
    · next first more hmore =>
      rw [hmore] at hpieces
      refine ⟨first :: more.filter (· ≠ .current), rfl, fun c hc => ?_⟩
      rcases List.mem_cons.1 hc with rfl | hc
      · exact hpieces c (by simp)
      · exact hpieces c (List.mem_cons_of_mem _ (List.mem_of_mem_filter hc))

/-! ### Normal forms -/

namespace NormalForm

variable (n : NormalForm)

/-- The components of a path in normal form. -/
def parts : List Component :=
  (if n.rooted then [.root] else []) ++ (if n.climbs then [.parent] else [])
    ++ n.names.map .name

/-- The pieces between the slashes of a path in normal form. -/
def pieces : List (List Char) := (if n.climbs then [['.', '.']] else []) ++ n.names

/-- The text of a path in normal form. -/
def text : List Char := (if n.rooted then ['/'] else []) ++ joinPieces n.pieces

/-- The text in front of a name in the directory of a path in normal form. -/
def front : List Char :=
  (if n.rooted then ['/'] else []) ++ n.pieces.flatMap fun piece => piece ++ ['/']

/-- The path with one more name. -/
def snoc (name : List Char) (h : IsName name) : NormalForm :=
  { n with
    names := n.names ++ [name]
    isName := by
      intro other hother
      rcases List.mem_append.1 hother with ho | ho
      · exact n.isName other ho
      · exact List.mem_singleton.1 ho ▸ h }

end NormalForm

theorem parts_snoc (n : NormalForm) {name : List Char} (h : IsName name) :
    (n.snoc name h).parts = n.parts ++ [.name name] := by
  unfold NormalForm.parts NormalForm.snoc
  rw [List.map_append, ← List.append_assoc]
  rfl

theorem render_parts (n : NormalForm) : render n.parts = n.text := by
  obtain ⟨rooted, climbs, names, h⟩ := n
  have hnames : ∀ names : List (List Char),
      (names.map Component.name).map Component.piece = names :=
    fun names => by simp [Function.comp_def, Component.piece]
  cases rooted <;> cases climbs <;> cases names <;>
    simp [NormalForm.parts, NormalForm.text, NormalForm.pieces, render, Component.piece, hnames]

/-- Reading a component onto a path in normal form leaves one. -/
theorem exists_push (n : NormalForm) {c : Component} (hroot : c ≠ .root)
    (hname : ∀ text, c = .name text → IsName text) :
    ∃ n' : NormalForm, push n.parts.reverse c = n'.parts.reverse ∧ n'.rooted = n.rooted := by
  cases c with
  | root => exact absurd rfl hroot
  | current => exact ⟨n, rfl, rfl⟩
  | name text =>
    exact ⟨n.snoc text (hname text rfl), by rw [parts_snoc, List.reverse_concat]; rfl, rfl⟩
  | parent =>
    obtain ⟨rooted, climbs, names, h⟩ := n
    -- the last name goes, or else the `..` in front is taken back or put there
    rcases List.eq_nil_or_concat names with rfl | ⟨names, last, rfl⟩
    · refine ⟨⟨rooted, !climbs, [], by simp⟩, ?_, rfl⟩
      cases rooted <;> cases climbs <;> simp [push, NormalForm.parts]
    · refine ⟨⟨rooted, climbs, names, fun name hn => h name (by simp [hn])⟩, ?_, rfl⟩
      simp [push, NormalForm.parts]

theorem exists_foldl_push (cs : List Component)
    (hcs : ∀ c ∈ cs, c ≠ .root ∧ ∀ text, c = .name text → IsName text) (n : NormalForm) :
    ∃ n' : NormalForm, cs.foldl push n.parts.reverse = n'.parts.reverse ∧ n'.rooted = n.rooted := by
  induction cs generalizing n with
  | nil => exact ⟨n, rfl, rfl⟩
  | cons c cs ih =>
    obtain ⟨hroot, hname⟩ := hcs c (by simp)
    obtain ⟨n₁, h₁, hr₁⟩ := exists_push n hroot hname
    obtain ⟨n₂, h₂, hr₂⟩ := ih (fun c' hc' => hcs c' (by simp [hc'])) n₁
    exact ⟨n₂, by rw [List.foldl_cons, h₁, h₂], hr₂.trans hr₁⟩

/-- Every path is normalized to a row of names behind its root. -/
theorem exists_normalForm (path : List Char) :
    ∃ n : NormalForm, normal (components path) = n.parts ∧ n.rooted = isAbsolute path := by
  obtain ⟨rest, hrest, hgood⟩ := exists_components path
  have hstart : (components path).foldl push [] =
      rest.foldl push (⟨isAbsolute path, false, [], by simp⟩ : NormalForm).parts.reverse := by
    rw [hrest, List.foldl_append]
    congr 1
    cases isAbsolute path <;> rfl
  obtain ⟨n, hn, hr⟩ := exists_foldl_push rest hgood ⟨isAbsolute path, false, [], by simp⟩
  exact ⟨n, by rw [normal, hstart, hn, List.reverse_reverse], hr⟩

/-- A path is in normal form. -/
def IsNormal (path : String) : Prop := ∃ n : NormalForm, path.toList = n.text

theorem exists_normalize (path : String) :
    ∃ n : NormalForm, (normalize path).toList = n.text ∧ n.rooted = isAbsolute path.toList := by
  obtain ⟨n, hn, hr⟩ := exists_normalForm path.toList
  exact ⟨n, by rw [normalize, String.toList_ofList, hn, render_parts], hr⟩

theorem isNormal_normalize (path : String) : IsNormal (normalize path) :=
  (exists_normalize path).imp fun _ h => h.1

/-! ### The text of a path in normal form -/

theorem joinPieces_concat (pieces : List (List Char)) (last : List Char) :
    joinPieces (pieces ++ [last]) = (pieces.flatMap fun piece => piece ++ ['/']) ++ last := by
  induction pieces with
  | nil => rfl
  | cons piece pieces ih =>
    cases pieces with
    | nil => simp [joinPieces]
    | cons next pieces =>
      rw [List.cons_append, List.cons_append, joinPieces, ← List.cons_append, ih]
      · simp
      · simp

theorem text_snoc (n : NormalForm) {name : List Char} (h : IsName name) :
    (n.snoc name h).text = n.front ++ name := by
  unfold NormalForm.text NormalForm.front
  rw [show (n.snoc name h).pieces = n.pieces ++ [name] from (List.append_assoc ..).symm,
    joinPieces_concat, ← List.append_assoc]
  rfl

/-- The last piece of a path in normal form is a name, or nothing, or the `..` in front. -/
theorem exists_front (n : NormalForm) : ∃ (above : NormalForm) (last : List Char),
    n.text = above.front ++ last ∧ '/' ∉ last ∧ above.rooted = n.rooted := by
  obtain ⟨rooted, climbs, names, h⟩ := n
  rcases List.eq_nil_or_concat names with rfl | ⟨names, last, rfl⟩
  · cases climbs with
    | false => exact ⟨⟨rooted, false, [], h⟩, [], by cases rooted <;> rfl, by simp, rfl⟩
    | true => exact ⟨⟨rooted, false, [], h⟩, ['.', '.'], by cases rooted <;> rfl, by decide, rfl⟩
  · have hlast : IsName last := h last (by simp)
    have hnames : ∀ name ∈ names, IsName name := fun name hn => h name (by simp [hn])
    refine ⟨⟨rooted, climbs, names, hnames⟩, last, ?_, hlast.slash, rfl⟩
    rw [← text_snoc _ hlast]
    simp only [List.concat_eq_append]
    rfl

/-- Nothing or a slash is at the end of the text in front of a name. -/
theorem getLast?_front {n : NormalForm} {c : Char} (h : n.front.getLast? = some c) : c = '/' := by
  unfold NormalForm.front at h
  rcases List.eq_nil_or_concat n.pieces with hp | ⟨pieces, last, hp⟩
  · rw [hp] at h
    cases hr : n.rooted with
    | false => simp [hr] at h
    | true => simpa [hr, eq_comm] using h
  · rw [hp, List.concat_eq_append, List.flatMap_append, List.flatMap_singleton, ← List.append_assoc,
      ← List.append_assoc, List.getLast?_concat] at h
    exact (Option.some.inj h).symm

/-- A piece with an extension is a name. -/
theorem isName_withExtension {stem extension : List Char} (hs : '/' ∉ stem)
    (he : '/' ∉ extension) (hl : 2 ≤ extension.length) : IsName (stem ++ '.' :: extension) := by
  have hlength : 3 ≤ (stem ++ '.' :: extension).length := by
    rw [List.length_append, List.length_cons]
    omega
  refine ⟨?_, ?_, ?_, by simp [hs, he]⟩
  all_goals
    intro h
    rw [h] at hlength
    simp at hlength

/-- An end without slashes can be cut off the last piece only. -/
theorem eq_append_of_front_append {n : NormalForm} {last before ending : List Char}
    (hslash : '/' ∉ ending) (h : n.front ++ last = before ++ ending) :
    ∃ stem, last = stem ++ ending ∧ before = n.front ++ stem := by
  rcases List.append_eq_append_iff.1 h with ⟨stem, hb, hl⟩ | ⟨more, hf, he⟩
  · exact ⟨stem, hl, hb⟩
  · rcases List.eq_nil_or_concat more with rfl | ⟨more, c, rfl⟩
    · exact ⟨[], by simpa using he.symm, by simpa using hf.symm⟩
    · have hc : c = '/' := getLast?_front (n := n) (by rw [hf]; simp)
      exact absurd (by rw [he, hc]; simp) hslash

/-- What is put behind a path in normal form is put in its directory. -/
theorem joinChars_text (n : NormalForm) {path : List Char} (h : isAbsolute path = false) :
    joinChars n.text path = n.front ++ path := by
  have hrelative : ¬ isAbsolute path = true := by simp [h]
  unfold joinChars NormalForm.text NormalForm.front
  rcases List.eq_nil_or_concat n.pieces with hp | ⟨pieces, last, hp⟩
  · rw [hp]
    cases n.rooted <;> simp [joinPieces, hrelative]
  · have hlast : last ≠ [] ∧ '/' ∉ last := by
      have hmem : last ∈ n.pieces := by rw [hp]; simp
      rcases List.mem_append.1 hmem with hm | hm
      · split at hm
        · rw [List.mem_singleton.1 hm]
          decide
        · cases hm
      · exact ⟨(n.isName last hm).ne_nil, (n.isName last hm).slash⟩
    have hend : last.getLast? ≠ some '/' := fun he => hlast.2 (List.mem_of_getLast? he)
    rw [hp, List.concat_eq_append, joinPieces_concat]
    simp [hrelative, hlast.1, hend]

end PathName

end RouteContract
