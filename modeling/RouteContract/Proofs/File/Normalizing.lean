import Mathlib
import RouteContract.Proofs.File.Location

/-!
# What a normal form keeps of a path

A path leads up some levels from where it starts and then down by names (`Course`); nothing is above
the root. Its normal form leads down by the same names, but of the levels up it keeps one, when
their number is odd, and none, when it is even (`course_normalize`): a `..` that is kept is taken
back by the next one that finds no name. So normalizing twice changes nothing more, and the normal
form stands for the location of the path when the path is absolute or goes up one level at most, and
otherwise only where so few levels are above the working directory that it makes no difference
(`normalize_resolves`).
-/

namespace RouteContract.PathName

/-- The way of a path from its start: some levels up, then down by names. -/
structure Course where
  up : Nat
  names : FileLocation

namespace Course

/-- The way with one more component; the root starts it anew. -/
def add (k : Course) : Component → Course
  | .root => ⟨0, []⟩
  | .current => k
  | .parent => if k.names = [] then ⟨k.up + 1, []⟩ else ⟨k.up, k.names.dropLast⟩
  | .name text => ⟨k.up, k.names ++ [text]⟩

/-- Where a way leads from a directory; nothing is above the root. -/
def goal (k : Course) (start : FileLocation) : FileLocation :=
  start.take (start.length - k.up) ++ k.names

/-- The components that are left of a way when each second step up takes back the one before it. -/
def parts (k : Course) (rooted : Bool) : List Component :=
  (if rooted then [.root] else []) ++ (if k.up % 2 = 1 then [.parent] else [])
    ++ k.names.map .name

end Course

/-- The way of a path. -/
def course (path : String) : Course := (components path.toList).foldl Course.add ⟨0, []⟩

/-- The directory in which the way of a path starts. -/
def startOf (workdir : FileLocation) (path : String) : FileLocation :=
  if isAbsolute path.toList then [] else workdir

/-! ### The way of a path -/

theorem step_goal (k : Course) {c : Component} (h : c ≠ .root) (start : FileLocation) :
    c.step (k.goal start) = (k.add c).goal start := by
  cases c with
  | root => exact absurd rfl h
  | current => rfl
  | name text => simp [Component.step, Course.add, Course.goal]
  | parent =>
    obtain ⟨up, names⟩ := k
    rcases List.eq_nil_or_concat names with rfl | ⟨names, last, rfl⟩
    · have htake : (start.take (start.length - up)).dropLast =
          start.take (start.length - (up + 1)) := by
        rw [List.dropLast_eq_take, List.take_take, List.length_take]
        congr 1
        omega
      simpa [Component.step, Course.add, Course.goal] using htake
    · simp [Component.step, Course.add, Course.goal]

theorem foldl_step_goal {cs : List Component} (h : ∀ c ∈ cs, c ≠ .root) (k : Course)
    (start : FileLocation) :
    cs.foldl Component.step (k.goal start) = (cs.foldl Course.add k).goal start := by
  induction cs generalizing k with
  | nil => rfl
  | cons c cs ih =>
    rw [List.foldl_cons, List.foldl_cons, step_goal k (h c List.mem_cons_self),
      ih fun c' hc' => h c' (List.mem_cons_of_mem _ hc')]

/-- A path stands for the location that its way leads to. -/
theorem location_eq_goal (workdir : FileLocation) (path : String) :
    location workdir path = (course path).goal (startOf workdir path) := by
  obtain ⟨rest, hrest, hgood⟩ := exists_components path.toList
  have hroot : ∀ c ∈ rest, c ≠ .root := fun c hc => (hgood c hc).1
  have hstart : location workdir path = rest.foldl Component.step (startOf workdir path) := by
    rw [location, hrest, startOf]
    cases isAbsolute path.toList <;> rfl
  have hcourse : course path = rest.foldl Course.add ⟨0, []⟩ := by
    rw [course, hrest]
    cases isAbsolute path.toList <;> rfl
  have hhere : (⟨0, []⟩ : Course).goal (startOf workdir path) = startOf workdir path := by
    simp [Course.goal]
  rw [hstart, hcourse, ← foldl_step_goal hroot, hhere]

/-! ### The way of a normal form -/

theorem parts_add_name (k : Course) (text : List Char) (rooted : Bool) :
    (k.add (.name text)).parts rooted = k.parts rooted ++ [.name text] := by
  unfold Course.parts Course.add
  rw [List.map_append, ← List.append_assoc]
  rfl

/-- A component is read onto what is left of a way. -/
theorem push_parts (k : Course) {c : Component} (h : c ≠ .root) (rooted : Bool) :
    push (k.parts rooted).reverse c = ((k.add c).parts rooted).reverse := by
  cases c with
  | root => exact absurd rfl h
  | current => rfl
  | name text =>
    rw [parts_add_name, List.reverse_concat]
    rfl
  | parent =>
    obtain ⟨up, names⟩ := k
    -- the last name goes; without one, the step up that was kept goes, or this one is kept
    rcases List.eq_nil_or_concat names with rfl | ⟨names, last, rfl⟩
    · rcases Nat.mod_two_eq_zero_or_one up with hup | hup
      · have hnext : (up + 1) % 2 = 1 := by omega
        cases rooted <;> simp [push, Course.add, Course.parts, hup, hnext]
      · have hnext : (up + 1) % 2 = 0 := by omega
        cases rooted <;> simp [push, Course.add, Course.parts, hup, hnext]
    · simp [push, Course.add, Course.parts]

theorem foldl_push_parts {cs : List Component} (h : ∀ c ∈ cs, c ≠ .root) (k : Course)
    (rooted : Bool) :
    cs.foldl push (k.parts rooted).reverse = ((cs.foldl Course.add k).parts rooted).reverse := by
  induction cs generalizing k with
  | nil => rfl
  | cons c cs ih =>
    rw [List.foldl_cons, List.foldl_cons, push_parts k (h c List.mem_cons_self),
      ih fun c' hc' => h c' (List.mem_cons_of_mem _ hc')]

/-- The components of the normal form of a path. -/
theorem normal_components (path : String) :
    normal (components path.toList) = (course path).parts (isAbsolute path.toList) := by
  obtain ⟨rest, hrest, hgood⟩ := exists_components path.toList
  have hroot : ∀ c ∈ rest, c ≠ .root := fun c hc => (hgood c hc).1
  have hcourse : course path = rest.foldl Course.add ⟨0, []⟩ := by
    rw [course, hrest]
    cases isAbsolute path.toList <;> rfl
  have hpush : (components path.toList).foldl push [] =
      rest.foldl push ((⟨0, []⟩ : Course).parts (isAbsolute path.toList)).reverse := by
    rw [hrest]
    cases isAbsolute path.toList <;> rfl
  rw [normal, hpush, foldl_push_parts hroot, List.reverse_reverse, hcourse]

theorem components_text (n : NormalForm) : components n.text = n.parts := by
  have hfilter : ∀ cs : List Component, (∀ c ∈ cs, c ≠ .current) →
      cs.filter (· ≠ .current) = cs :=
    fun cs hcs => List.filter_eq_self.2 fun c hc => by simpa using hcs c hc
  have hparts : ∀ c ∈ (if n.climbs then [.parent] else []) ++ n.names.map .name,
      c ≠ Component.current := by
    intro c hc
    rcases List.mem_append.1 hc with hc | hc
    · split at hc
      · rw [List.mem_singleton.1 hc]
        exact Component.noConfusion
      · cases hc
    · obtain ⟨name, -, rfl⟩ := List.mem_map.1 hc
      exact Component.noConfusion
  unfold components
  dsimp only
  rw [filterMap_ofPiece_text, NormalForm.isAbsolute_text, NormalForm.parts, List.append_assoc]
  cases n.rooted with
  | true => rw [if_pos rfl, if_pos rfl, hfilter _ hparts, List.singleton_append]
  | false =>
    rw [if_neg Bool.false_ne_true, if_neg Bool.false_ne_true, List.nil_append]
    split
    · next h => exact h.symm
    · next first rest h =>
      rw [hfilter rest fun c hc => hparts c (h ▸ List.mem_cons_of_mem _ hc), h]

theorem components_normalize (path : String) :
    components (normalize path).toList = (course path).parts (isAbsolute path.toList) := by
  obtain ⟨n, hn, -⟩ := exists_normalForm path.toList
  rw [normalize, String.toList_ofList, hn, render_parts, components_text, ← hn, normal_components]

theorem isAbsolute_normalize (path : String) :
    isAbsolute (normalize path).toList = isAbsolute path.toList := by
  obtain ⟨n, hn, hr⟩ := exists_normalize path
  rw [hn, NormalForm.isAbsolute_text, hr]

theorem foldl_add_names (names : List (List Char)) (k : Course) :
    (names.map Component.name).foldl Course.add k = ⟨k.up, k.names ++ names⟩ := by
  induction names generalizing k with
  | nil => simp
  | cons name names ih => simp [ih, Course.add]

/-- Of the levels up the normal form keeps one, when their number is odd. -/
theorem course_normalize (path : String) :
    course (normalize path) = ⟨(course path).up % 2, (course path).names⟩ := by
  rw [course, components_normalize, Course.parts, List.foldl_append, foldl_add_names]
  rcases Nat.mod_two_eq_zero_or_one (course path).up with h | h <;>
    cases isAbsolute path.toList <;> simp [h, Course.add]

theorem normalize_normalize (path : String) : normalize (normalize path) = normalize path := by
  have hparts : (course (normalize path)).parts = (course path).parts := by
    unfold Course.parts
    rw [course_normalize, Nat.mod_mod]
  rw [normalize, normal_components, isAbsolute_normalize, hparts, ← normal_components, ← normalize]

/-- Ways that end alike lead to one location when they go up to one level. -/
theorem goal_eq_goal_iff (k : Course) (up : Nat) (start : FileLocation) :
    (⟨up, k.names⟩ : Course).goal start = k.goal start ↔
      start.length - up = start.length - k.up := by
  unfold Course.goal
  rw [List.append_cancel_right_eq]
  constructor
  · intro h
    have hlength := congrArg List.length h
    simp only [List.length_take] at hlength
    omega
  · intro h
    rw [h]

/-- **What normalizing preserves.** Normalizing a path again changes nothing. The path leads, up and
then down, from the root or the working directory, and its normal form does so from the same place
and by the same names, with one level up when their number is odd and none when it is even. So the
two stand for one location just when the path is absolute, or goes up one level at most, or the
working directory is so near to the root that both end there. -/
theorem normalize_resolves (path : String) :
    normalize (normalize path) = normalize path ∧
    ∀ workdir,
      location workdir path = (course path).goal (startOf workdir path) ∧
      location workdir (normalize path) =
        (⟨(course path).up % 2, (course path).names⟩ : Course).goal (startOf workdir path) ∧
      (location workdir (normalize path) = location workdir path ↔
        isAbsolute path.toList ∨ (course path).up ≤ 1 ∨
          workdir.length ≤ (course path).up % 2) := by
  refine ⟨normalize_normalize path, fun workdir => ?_⟩
  have hgoal : location workdir (normalize path) =
      (⟨(course path).up % 2, (course path).names⟩ : Course).goal (startOf workdir path) := by
    rw [location_eq_goal, course_normalize, startOf, isAbsolute_normalize, ← startOf]
  refine ⟨location_eq_goal workdir path, hgoal, ?_⟩
  rw [hgoal, location_eq_goal, goal_eq_goal_iff, startOf]
  cases isAbsolute path.toList with
  | true => simp
  | false =>
    rw [if_neg Bool.false_ne_true]
    constructor
    · intro h
      refine Or.inr ?_
      omega
    · rintro (h | h | h)
      · exact absurd h Bool.false_ne_true
      · omega
      · omega

/-- Two levels up from `/a/b` is the root, but the normal form of `../..` is empty. -/
theorem location_normalize_dots :
    location [['a'], ['b']] "../.." = [] ∧ normalize "../.." = "" ∧
      location [['a'], ['b']] (normalize "../..") = [['a'], ['b']] := by
  decide +kernel

end RouteContract.PathName
