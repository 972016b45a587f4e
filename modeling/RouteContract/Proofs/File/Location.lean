import Mathlib
import RouteContract.File.System
import RouteContract.Proofs.Distinct
import RouteContract.Proofs.File.NormalForm

/-!
# Where paths lead

A path stands for a location, told from its components one by one: a name leads down, `..` leads up
and stays at the root. A file system follows a path to that location only (`locate_eq_ok`). So a
path in normal form that leads to a file is one of the few names that its location has
(`mem_fileNames`), and two such paths are equal when they start alike, both from the root or both
from the working directory, and both with a `..` in front or both without, and their locations are
equal (`eq_of_location_eq`).
-/

namespace RouteContract

namespace PathName

/-- The location that a component leads to. -/
def Component.step (location : FileLocation) : Component → FileLocation
  | .root => []
  | .current => location
  | .parent => location.dropLast
  | .name text => location ++ [text]

/-- The location that a path stands for, seen from a directory. -/
def location (workdir : FileLocation) (path : String) : FileLocation :=
  (components path.toList).foldl Component.step workdir

theorem foldl_step_filter_current (cs : List Component) (start : FileLocation) :
    (cs.filter (· ≠ .current)).foldl Component.step start = cs.foldl Component.step start := by
  induction cs generalizing start with
  | nil => rfl
  | cons c cs ih =>
    by_cases hc : c = .current
    · subst hc
      exact ih start
    · rw [List.filter_cons_of_pos (by simpa using hc), List.foldl_cons, List.foldl_cons, ih]

/-- The location of a path is told from its pieces. -/
theorem location_eq_foldl (workdir : FileLocation) (path : String) :
    location workdir path = ((Text.splitChars '/' path.toList).filterMap ofPiece).foldl
      Component.step (if isAbsolute path.toList then [] else workdir) := by
  unfold location components
  dsimp only
  split
  · rw [List.foldl_cons, foldl_step_filter_current]
    rfl
  · split
    · next h => rw [h]
    · next first rest h => rw [h, List.foldl_cons, foldl_step_filter_current, List.foldl_cons]

theorem foldl_step_names (names : List (List Char)) (start : FileLocation) :
    (names.map Component.name).foldl Component.step start = start ++ names := by
  induction names generalizing start with
  | nil => simp
  | cons name names ih => rw [List.map_cons, List.foldl_cons, ih, Component.step, List.append_assoc,
      List.singleton_append]

/-! ### Paths in normal form -/

namespace NormalForm

variable (n : NormalForm)

/-- The directory from which the names of a path in normal form lead down. -/
def start (workdir : FileLocation) : FileLocation :=
  if n.rooted then [] else if n.climbs then workdir.dropLast else workdir

theorem isAbsolute_text : isAbsolute n.text = n.rooted := by
  obtain ⟨rooted, climbs, names, h⟩ := n
  cases rooted with
  | true => rfl
  | false =>
    cases climbs with
    | true => cases names <;> rfl
    | false =>
      cases names with
      | nil => rfl
      | cons name names =>
        have hname : IsName name := h name (by simp)
        obtain ⟨c, rest, rfl⟩ := List.exists_cons_of_ne_nil hname.ne_nil
        have hc : c ≠ '/' := fun hc => hname.slash (by simp [hc])
        cases names <;> simpa [text, pieces, joinPieces, isAbsolute] using hc

end NormalForm

theorem ofPiece_of_isName {piece : List Char} (h : IsName piece) :
    ofPiece piece = some (.name piece) := by
  rw [ofPiece, if_neg h.ne_nil, if_neg h.ne_dot, if_neg h.ne_dots]

theorem joinPieces_eq_intercalate (pieces : List (List Char)) :
    joinPieces pieces = List.intercalate ['/'] pieces := by
  induction pieces with
  | nil => rfl
  | cons piece pieces ih =>
    cases pieces with
    | nil => rw [joinPieces, List.intercalate_singleton]
    | cons next pieces =>
      rw [joinPieces, ih, List.intercalate_cons_cons, List.append_assoc, List.singleton_append]
      exact List.cons_ne_nil _ _

/-- The components between the slashes of a path in normal form. -/
theorem filterMap_ofPiece_text (n : NormalForm) :
    (Text.splitChars '/' n.text).filterMap ofPiece =
      (if n.climbs then [.parent] else []) ++ n.names.map .name := by
  have hnames : n.names.filterMap ofPiece = n.names.map .name := by
    rw [← List.filterMap_eq_map]
    exact List.filterMap_congr fun name hname => ofPiece_of_isName (n.isName name hname)
  have hpieces : n.pieces.filterMap ofPiece =
      (if n.climbs then [.parent] else []) ++ n.names.map .name := by
    rw [NormalForm.pieces, List.filterMap_append, hnames]
    cases n.climbs <;> rfl
  have hslash : ∀ piece ∈ n.pieces, '/' ∉ piece := by
    intro piece hpiece
    rcases List.mem_append.1 hpiece with hp | hp
    · split at hp
      · rw [List.mem_singleton.1 hp]
        decide
      · cases hp
    · exact (n.isName piece hp).slash
  have hjoin : (Text.splitChars '/' (joinPieces n.pieces)).filterMap ofPiece =
      n.pieces.filterMap ofPiece := by
    rw [joinPieces_eq_intercalate]
    by_cases hne : n.pieces = []
    · rw [hne]
      rfl
    · rw [Text.splitChars_intercalate hne hslash]
  rw [← hpieces, ← hjoin, NormalForm.text]
  cases n.rooted <;> rfl

/-- The location of a path in normal form. -/
theorem location_of_text (workdir : FileLocation) {path : String} {n : NormalForm}
    (h : path.toList = n.text) : location workdir path = n.start workdir ++ n.names := by
  rw [location_eq_foldl, h, filterMap_ofPiece_text, List.foldl_append, foldl_step_names,
    NormalForm.isAbsolute_text]
  unfold NormalForm.start
  cases n.rooted <;> cases n.climbs <;> rfl

/-- Whether a path goes up from where it starts. -/
def climbs (path : String) : Bool := ((Text.splitChars '/' path.toList).filterMap ofPiece).head? =
  some .parent

theorem climbs_of_text {path : String} {n : NormalForm} (h : path.toList = n.text) :
    climbs path = n.climbs := by
  rw [climbs, h, filterMap_ofPiece_text]
  cases n.climbs with
  | true => rfl
  | false => cases n.names <;> simp

/-- Two paths in normal form are equal when they start alike and stand for one location. -/
theorem eq_of_location_eq {workdir : FileLocation} {path other : String} (h : IsNormal path)
    (h' : IsNormal other) (hroot : isAbsolute path.toList = isAbsolute other.toList)
    (hclimbs : climbs path = climbs other)
    (hl : location workdir path = location workdir other) : path = other := by
  obtain ⟨n, hn⟩ := h
  obtain ⟨n', hn'⟩ := h'
  rw [climbs_of_text hn, climbs_of_text hn'] at hclimbs
  rw [hn, hn', NormalForm.isAbsolute_text, NormalForm.isAbsolute_text] at hroot
  rw [location_of_text workdir hn, location_of_text workdir hn', NormalForm.start, NormalForm.start,
    hroot, hclimbs, List.append_cancel_left_eq] at hl
  rw [← String.toList_inj, hn, hn', NormalForm.text, NormalForm.text, NormalForm.pieces,
    NormalForm.pieces, hroot, hclimbs, hl]

end PathName

/-! ### What a file system follows -/

/-- A sequence succeeds when its parts do. -/
theorem exists_of_bind_eq_ok {ε α β : Type} {x : Except ε α} {f : α → Except ε β} {b : β}
    (h : x >>= f = .ok b) : ∃ a, x = .ok a ∧ f a = .ok b := by
  cases x with
  | error e => cases h
  | ok a => exact ⟨a, rfl, h⟩

namespace FileSystem

open PathName

variable {fs : FileSystem}

/-- A piece that is followed leads where its component does. -/
theorem follow_eq_ok {location target : FileLocation} {piece : List Char}
    (h : fs.follow location piece = .ok target) :
    target = (ofPiece piece).elim location (Component.step location) ∧
      fs.contentAt? location = some .directory := by
  unfold follow at h
  split at h
  · cases h
  next hdir =>
  rw [not_not] at hdir
  refine ⟨?_, hdir⟩
  unfold ofPiece
  split at h
  · next hidle =>
    cases h
    rcases Bool.or_eq_true_iff.1 hidle with hnil | hdot
    · rw [if_pos (by simpa using hnil)]
      rfl
    · rw [if_neg (by rintro rfl; simp at hdot), if_pos (by simpa using hdot)]
      rfl
  · next hidle =>
    rw [isIdle, Bool.or_eq_true, not_or, decide_eq_true_eq, decide_eq_true_eq] at hidle
    rw [if_neg hidle.1, if_neg hidle.2]
    split at h
    · next hdots =>
      cases h
      rw [if_pos hdots]
      rfl
    · next hdots =>
      rw [if_neg hdots]
      split at h
      · cases h
      · split at h
        · cases h
          rfl
        · cases h

theorem foldlM_follow_eq_ok {pieces : List (List Char)} {start target : FileLocation}
    (h : pieces.foldlM fs.follow start = .ok target) :
    target = (pieces.filterMap ofPiece).foldl Component.step start := by
  induction pieces generalizing start with
  | nil =>
    cases h
    rfl
  | cons piece pieces ih =>
    rw [List.foldlM_cons] at h
    obtain ⟨next, hnext, hrest⟩ := exists_of_bind_eq_ok h
    rw [ih hrest, (follow_eq_ok hnext).1, List.filterMap_cons]
    cases ofPiece piece <;> rfl

/-- A path that is followed leads to the location that it stands for. -/
theorem locate_eq_ok {path : String} {target : FileLocation} (h : fs.locate path = .ok target) :
    target = PathName.location fs.workdir path := by
  obtain ⟨u, -, h⟩ := exists_of_bind_eq_ok h
  rw [foldlM_follow_eq_ok h, location_eq_foldl, origin]

/-- What a path leads to stands at its location. -/
theorem contentAt?_of_content {path : String} {found : FileContent}
    (h : fs.content path = .ok found) :
    fs.contentAt? (PathName.location fs.workdir path) = some found := by
  obtain ⟨target, ht, h⟩ := exists_of_bind_eq_ok h
  rw [← locate_eq_ok ht]
  cases hat : fs.contentAt? target with
  | none =>
    rw [hat] at h
    cases h
  | some there =>
    rw [hat] at h
    exact congrArg some (Except.ok.inj h)

/-- What is no directory is there as an entry. -/
theorem mem_entries_of_contentAt? {location : FileLocation} {found : FileContent}
    (h : fs.contentAt? location = some found) (hfile : found ≠ .directory) :
    (location, found) ∈ fs.entries := by
  unfold contentAt? at h
  split at h
  · next entry hentry =>
    cases h
    have hloc : entry.1 = location := by simpa using List.find?_some hentry
    rw [← hloc]
    exact List.mem_of_find?_eq_some hentry
  · split at h
    · exact absurd (Option.some.inj h).symm hfile
    · cases h

/-- A path of a file stands for the location of an entry. -/
theorem exists_entry_of_isFile {path : String} (h : fs.isFile path = true) :
    ∃ found, (PathName.location fs.workdir path, found) ∈ fs.entries ∧ found ≠ .directory := by
  unfold isFile at h
  split at h
  · cases h
  · next found hne hfound =>
    exact ⟨found, mem_entries_of_contentAt? (contentAt?_of_content hfound) hne, hne⟩
  · cases h

/-- A path in normal form is one of the names of its location. -/
theorem mem_normalNames {path : String} (h : IsNormal path) :
    path ∈ fs.normalNames (PathName.location fs.workdir path) := by
  obtain ⟨n, hn⟩ := h
  have hpath : path = String.ofList (render n.parts) := by
    rw [render_parts, ← hn, String.ofList_toList]
  rw [location_of_text fs.workdir hn]
  refine List.mem_map.2 ⟨n.parts, ?_, hpath.symm⟩
  -- the four kinds of rows, by the root and the `..` in front
  unfold NormalForm.parts NormalForm.start
  cases n.rooted <;> cases n.climbs <;> simp [List.isPrefixOf_iff_prefix]

theorem nodup_fileNames (fs : FileSystem) : fs.fileNames.Nodup := nodup_eraseDups _

/-- A path in normal form that leads to a file is listed. -/
theorem mem_fileNames {path : String} (h : IsNormal path) (hfile : fs.isFile path = true) :
    path ∈ fs.fileNames := by
  obtain ⟨found, hmem, hne⟩ := exists_entry_of_isFile hfile
  refine List.mem_eraseDups.2 (List.mem_flatMap.2 ⟨_, List.mem_filter.2 ⟨hmem, ?_⟩,
    mem_normalNames h⟩)
  simpa using hne

end FileSystem

end RouteContract
