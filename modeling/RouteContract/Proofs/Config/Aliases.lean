import Mathlib
import RouteContract.Config.Project
import RouteContract.Proofs.File.NormalForm
import RouteContract.Proofs.Route.Placeholders
import RouteContract.Proofs.Text.Bytes

/-!
# What a module name may stand for

A pattern fits a name when it is the name, without a star, or when the name is the text before its
first star, some text, and the text after that star (`Fits`). That some text can be cut out of the
name by counting bytes: once the name is known to be long enough, to start and to end right, the cut
is never out of bounds and never within a character (`capture?_eq`).

Of the patterns that fit, the one with the longest text before its star comes first, and of equally
long ones the first of the configuration (`Ranked`). The substitutions of the patterns in this order
are the candidates for a name, and behind them stands the name in the base directory
(`candidates_ranked`).
-/

namespace RouteContract

namespace ProjectConfig

/-! ### Patterns -/

/-- A pattern fits a name: what its star stands for, and the number of bytes that ranks it. -/
inductive Fits (name : List Char) : (pattern capture : List Char) → (rank : Nat) → Prop
  | exact (h : '*' ∉ name) : Fits name name [] (Text.byteSize name)
  | star {before after capture : List Char} (h : '*' ∉ before)
      (hname : name = before ++ capture ++ after) :
      Fits name (before ++ '*' :: after) capture (Text.byteSize before)

theorem cutAt?_star_eq_none {pattern : List Char} (h : '*' ∉ pattern) :
    Text.cutAt? ['*'] pattern = none := by
  induction pattern with
  | nil => rfl
  | cons c pattern ih =>
    rw [List.mem_cons, not_or] at h
    rw [Text.cutAt?, Text.afterPrefix?_singleton_of_ne h.1]
    simp [ih h.2]

/-- A pattern has no star or a first one. -/
theorem star_cases (pattern : List Char) : '*' ∉ pattern ∨
    ∃ before after, '*' ∉ before ∧ pattern = before ++ '*' :: after := by
  by_cases h : '*' ∈ pattern
  · obtain ⟨before, after, hpattern, hb⟩ := List.eq_append_cons_of_mem h
    exact Or.inr ⟨before, after, hb, hpattern⟩
  · exact Or.inl h

theorem captured?_of_notMem {pattern : List Char} (h : '*' ∉ pattern) (name : List Char) :
    captured? pattern name = if pattern = name then some [] else none := by
  rw [captured?, cutAt?_star_eq_none h]

theorem captured?_star {before : List Char} (h : '*' ∉ before) (after name : List Char) :
    captured? (before ++ '*' :: after) name =
      (Text.afterPrefix? before name).bind (Text.beforeSuffix? after) := by
  rw [captured?, Text.cutAt?_singleton h]

theorem takeWhile_ne_star {before : List Char} (h : '*' ∉ before) (rest : List Char) :
    (before ++ rest).takeWhile (· ≠ '*') = before ++ rest.takeWhile (· ≠ '*') := by
  refine List.takeWhile_append_of_pos fun c hc => decide_eq_true ?_
  rintro rfl
  exact h hc

theorem weight_of_notMem {pattern : List Char} (h : '*' ∉ pattern) :
    weight pattern = Text.byteSize pattern := by
  rw [weight, ← List.append_nil pattern, takeWhile_ne_star h, List.takeWhile_nil]

theorem weight_star {before : List Char} (h : '*' ∉ before) (after : List Char) :
    weight (before ++ '*' :: after) = Text.byteSize before := by
  rw [weight, takeWhile_ne_star h, List.takeWhile_cons_of_neg (by simp), List.append_nil]

theorem captured?_star_eq_some_iff {before after name capture : List Char} (h : '*' ∉ before) :
    captured? (before ++ '*' :: after) name = some capture ↔
      name = before ++ capture ++ after := by
  rw [captured?_star h, Option.bind_eq_some_iff]
  constructor
  · rintro ⟨rest, hrest, hcapture⟩
    rw [Text.afterPrefix?_eq_some_iff] at hrest
    rw [Text.beforeSuffix?_eq_some_iff] at hcapture
    rw [hrest, hcapture, List.append_assoc]
  · intro hname
    refine ⟨capture ++ after, Text.afterPrefix?_eq_some_iff.2 ?_,
      Text.beforeSuffix?_eq_some_iff.2 rfl⟩
    rw [hname, List.append_assoc]

theorem fits_iff {pattern name capture : List Char} {rank : Nat} :
    Fits name pattern capture rank ↔
      captured? pattern name = some capture ∧ weight pattern = rank := by
  constructor
  · rintro (h | ⟨h, hname⟩)
    · exact ⟨by rw [captured?_of_notMem h, if_pos rfl], weight_of_notMem h⟩
    · exact ⟨(captured?_star_eq_some_iff h).2 hname, weight_star h _⟩
  · rintro ⟨hcapture, rfl⟩
    rcases star_cases pattern with h | ⟨before, after, h, rfl⟩
    · rw [captured?_of_notMem h] at hcapture
      split at hcapture
      · next hname =>
        subst hname
        cases hcapture
        rw [weight_of_notMem h]
        exact .exact h
      · cases hcapture
    · rw [weight_star h]
      exact .star h ((captured?_star_eq_some_iff h).1 hcapture)

/-! ### Capturing by bytes -/

/-- What the star of a pattern stands for, when the pattern fits, cut out of the name by counting
bytes. There is no outcome when the cut is out of bounds or within a character. -/
def capture? (pattern name : List Char) : Option (Option (List Char)) :=
  match Text.cutAt? ['*'] pattern with
  | none => some (if pattern = name then some [] else none)
  | some (before, after) =>
    if Text.byteSize before + Text.byteSize after ≤ Text.byteSize name ∧
        before <+: name ∧ after <:+ name then
      (Text.slice? (Text.byteSize before) (Text.byteSize name - Text.byteSize after) name).map some
    else some none

/-- The cut is always one, and it is what the star stands for. -/
theorem capture?_eq (pattern name : List Char) :
    capture? pattern name = some (captured? pattern name) := by
  rcases star_cases pattern with h | ⟨before, after, h, rfl⟩
  · rw [capture?, cutAt?_star_eq_none h, captured?_of_notMem h]
  · rw [capture?, Text.cutAt?_singleton h]
    dsimp only
    split
    · next hfits =>
      obtain ⟨middle, rfl⟩ := Text.exists_middle hfits.2.1 hfits.2.2 hfits.1
      rw [Text.slice?_append, (captured?_star_eq_some_iff h).2 rfl, Option.map_some]
    · next hfits =>
      congr 1
      symm
      rw [Option.eq_none_iff_forall_ne_some]
      intro capture hcapture
      rw [captured?_star_eq_some_iff h] at hcapture
      subst hcapture
      refine hfits ⟨?_, ?_, List.suffix_append _ _⟩
      · rw [Text.byteSize_append, Text.byteSize_append]
        omega
      · rw [List.append_assoc]
        exact List.prefix_append _ _

/-! ### The order of the patterns -/

/-- The patterns that fit a name as they stand in the configuration, each with what its star stands
for and with its substitutions. -/
def matching (config : ProjectConfig) (name : List Char) :
    List (List Char × List Char × List String) :=
  config.paths.filterMap fun (pattern, targets) =>
    (captured? pattern.toList name).map fun capture => (pattern.toList, capture, targets)

/-- A list with the greatest ranks first, in which those of equal rank stand as they were found. -/
structure Ranked {α : Type} (rank : α → Nat) (ranked found : List α) : Prop where
  perm : ranked.Perm found
  sorted : ranked.Pairwise fun a b => rank b ≤ rank a
  ties : ∀ n, ranked.filter (rank · = n) = found.filter (rank · = n)

theorem ranked_mergeSort {α : Type} (rank : α → Nat) (found : List α) :
    Ranked rank (found.mergeSort fun a b => rank b ≤ rank a) found := by
  have htrans : ∀ a b c : α, decide (rank b ≤ rank a) = true → decide (rank c ≤ rank b) = true →
      decide (rank c ≤ rank a) = true := by
    intro a b c hab hbc
    simp only [decide_eq_true_eq] at *
    omega
  have htotal : ∀ a b : α, (decide (rank b ≤ rank a) || decide (rank a ≤ rank b)) = true := by
    intro a b
    simp only [Bool.or_eq_true, decide_eq_true_eq]
    omega
  refine ⟨List.mergeSort_perm _ _, ?_, fun n => ?_⟩
  · exact (List.pairwise_mergeSort htrans htotal found).imp fun h => by simpa using h
  · -- those of one rank are sorted as found, so that the sort keeps them in a row
    have hequal : (found.filter (rank · = n)).Pairwise
        fun a b => decide (rank b ≤ rank a) = true := by
      refine List.pairwise_iff_forall_sublist.2 fun {a b} hab => ?_
      have ha := List.mem_filter.1 (hab.subset (List.mem_cons_self))
      have hb := List.mem_filter.1 (hab.subset (List.mem_cons_of_mem _ List.mem_cons_self))
      simp only [decide_eq_true_eq] at ha hb ⊢
      omega
    have hsub := List.sublist_mergeSort htrans htotal hequal (List.filter_sublist (l := found))
    have hfilter := hsub.filter (rank · = n)
    rw [List.filter_filter] at hfilter
    simp only [Bool.and_self] at hfilter
    refine (hfilter.eq_of_length ?_).symm
    exact ((List.mergeSort_perm found _).filter _).length_eq.symm

/-- There is one such order only. -/
theorem Ranked.unique {α : Type} {rank : α → Nat} {ranked other found : List α}
    (h : Ranked rank ranked found) (h' : Ranked rank other found) : ranked = other := by
  induction ranked generalizing other found with
  | nil => exact (h'.perm.trans h.perm.symm).eq_nil.symm
  | cons a ranked ih =>
    have hperm : other.Perm (a :: ranked) := h'.perm.trans h.perm.symm
    cases other with
    | nil => exact hperm.symm.eq_nil
    | cons b other =>
      have hb : rank b ≤ rank a := by
        rcases List.mem_cons.1 (hperm.subset List.mem_cons_self) with rfl | hmem
        · exact Nat.le_refl _
        · exact List.rel_of_pairwise_cons h.sorted hmem
      have ha : rank a ≤ rank b := by
        rcases List.mem_cons.1 (hperm.symm.subset List.mem_cons_self) with rfl | hmem
        · exact Nat.le_refl _
        · exact List.rel_of_pairwise_cons h'.sorted hmem
      have hties : ∀ n, (a :: ranked).filter (rank · = n) = (b :: other).filter (rank · = n) :=
        fun n => (h.ties n).trans (h'.ties n).symm
      have hfirst : a = b := by
        have hfirst := hties (rank a)
        rw [List.filter_cons_of_pos (by simp), List.filter_cons_of_pos (by simp; omega)] at hfirst
        exact (List.cons.inj hfirst).1
      subst hfirst
      rw [ih ⟨List.Perm.refl _, h.sorted.of_cons, fun _ => rfl⟩
        ⟨hperm.cons_inv, h'.sorted.of_cons, fun n => ?_⟩]
      have hn := hties n
      rw [List.filter_cons, List.filter_cons] at hn
      split at hn
      · exact (List.cons.inj hn).2.symm
      · exact hn.symm

/-- **The candidates of a module name.** What the star of a pattern stands for can be cut out of the
name by counting bytes, always within bounds, and there is such a text just when the pattern fits
the name. The patterns that fit stand by their ranks, ties as in the configuration; the candidates
are the substitutions of each, with every star replaced, seen from the directory of the patterns,
and then the name seen from the base directory, if there is one. -/
theorem candidates_ranked (config : ProjectConfig) (name : String) :
    (∀ pattern, capture? pattern name.toList = some (captured? pattern name.toList)) ∧
    (∀ pattern capture rank, Fits name.toList pattern capture rank ↔
      captured? pattern name.toList = some capture ∧ weight pattern = rank) ∧
    (∃ ranked, Ranked (fun e => weight e.1) ranked (config.matching name.toList)) ∧
    ∀ ranked, Ranked (fun e => weight e.1) ranked (config.matching name.toList) →
      config.candidates name =
        (ranked.flatMap fun (_, capture, targets) => targets.map fun target =>
          PathName.join config.pathsBase
            (String.ofList (target.toList.flatMap fun c => if c = '*' then capture else [c]))) ++
        (config.baseUrl.map fun base => PathName.join base name).toList := by
  have hranked : Ranked (fun e => weight e.1) (config.fitting name.toList)
      (config.matching name.toList) := ranked_mergeSort _ _
  refine ⟨fun pattern => capture?_eq pattern _, fun _ _ _ => fits_iff, ⟨_, hranked⟩,
    fun ranked h => ?_⟩
  rw [h.unique hranked]
  rfl

/-- Settings in which four patterns fit `@app/users`, two of them with equally much before the
star. -/
def usersConfig : ProjectConfig where
  configPath := "/p/tsconfig.json"
  baseUrl := some "/p/src"
  paths := [("@*", ["any/*"]), ("@app/*", ["modules/*", "*/*"]), ("@app/*s", ["one/*"]),
    ("@app/users", ["users"]), ("@app/users*rs", ["none"])]
  pathsBase := "/p/src"

/-- The patterns of `usersConfig` that fit `@app/users`, in their order. -/
def usersRanked : List (List Char × List Char × List String) :=
  [("@app/users".toList, [], ["users"]), ("@app/*".toList, "users".toList, ["modules/*", "*/*"]),
    ("@app/*s".toList, "user".toList, ["one/*"]), ("@*".toList, "app/users".toList, ["any/*"])]

theorem candidates_ranked_users :
    Ranked (fun e => weight e.1) usersRanked (usersConfig.matching "@app/users".toList) ∧
      usersConfig.candidates "@app/users" =
        ["/p/src/users", "/p/src/modules/users", "/p/src/users/users", "/p/src/one/user",
          "/p/src/any/app/users", "/p/src/@app/users"] := by
  have hmatching : usersConfig.matching "@app/users".toList =
      [("@*".toList, "app/users".toList, ["any/*"]),
        ("@app/*".toList, "users".toList, ["modules/*", "*/*"]),
        ("@app/*s".toList, "user".toList, ["one/*"]), ("@app/users".toList, [], ["users"])] := by
    decide +kernel
  have hsorted : (usersConfig.matching "@app/users".toList).mergeSort
      (fun a b => weight b.1 ≤ weight a.1) = usersRanked := by
    rw [hmatching]
    cbv
  have hranked : Ranked (fun e => weight e.1) usersRanked
      (usersConfig.matching "@app/users".toList) := hsorted ▸ ranked_mergeSort _ _
  refine ⟨hranked, ?_⟩
  rw [(candidates_ranked usersConfig "@app/users").2.2.2 _ hranked]
  decide +kernel

end ProjectConfig

end RouteContract
