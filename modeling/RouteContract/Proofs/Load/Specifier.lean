import Mathlib
import RouteContract.Load.Specifier
import RouteContract.Proofs.File.Location

/-!
# Which files specifiers lead to

A unit mentions a specifier at the node of an import, a re-export or a dynamic import. A specifier
leads to a path in normal form that is a file (`isNormal_of_resolve?`), so that it is one of the
finitely many names of files that a search has to look for (`mem_fileNames_of_resolve?`).
-/

namespace RouteContract

namespace SourceUnit

/-- A node of a unit mentions a specifier: as the source of an import or an export, or as the first
argument of a dynamic import. -/
inductive Mentions (unit : SourceUnit) (position : Nat) (specifier : String) : Prop
  | statement (source : NodeId) (hposition : position < unit.nodes.size)
      (hkind : (⟨#[unit]⟩ : Program).kind ⟨0, position⟩ = "import_statement" ∨
        (⟨#[unit]⟩ : Program).kind ⟨0, position⟩ = "export_statement")
      (hsource : (⟨#[unit]⟩ : Program).field? ⟨0, position⟩ "source" = some source)
      (hvalue : (⟨#[unit]⟩ : Program).stringValue? source = some specifier)
  | call (callee list source : NodeId) (hposition : position < unit.nodes.size)
      (hkind : (⟨#[unit]⟩ : Program).kind ⟨0, position⟩ = "call_expression")
      (hcallee : (⟨#[unit]⟩ : Program).field? ⟨0, position⟩ "function" = some callee)
      (himport : (⟨#[unit]⟩ : Program).kind callee = "import")
      (hlist : (⟨#[unit]⟩ : Program).field? ⟨0, position⟩ "arguments" = some list)
      (hfirst : ((⟨#[unit]⟩ : Program).namedChildren list).head? = some source)
      (hvalue : (⟨#[unit]⟩ : Program).stringValue? source = some specifier)

/-- The specifier at a node of a unit. -/
def specifierAt? (unit : SourceUnit) (position : Nat) : Option String :=
  (specifierNode? ⟨#[unit]⟩ ⟨0, position⟩).bind (⟨#[unit]⟩ : Program).stringValue?

theorem mentions_iff {unit : SourceUnit} {position : Nat} {specifier : String} :
    unit.Mentions position specifier ↔
      position < unit.nodes.size ∧ unit.specifierAt? position = some specifier := by
  unfold specifierAt?
  constructor
  · rintro (⟨source, hposition, hkind, hsource, hvalue⟩ |
      ⟨callee, list, source, hposition, hkind, hcallee, himport, hlist, hfirst, hvalue⟩)
    · refine ⟨hposition, ?_⟩
      rw [specifierNode?, if_pos hkind, hsource, Option.bind_some, hvalue]
    · refine ⟨hposition, ?_⟩
      rw [specifierNode?, if_neg (by rw [hkind]; decide),
        if_pos ⟨hkind, by simp [hcallee, himport]⟩, hlist, Option.bind_some, hfirst,
        Option.bind_some, hvalue]
  · rintro ⟨hposition, h⟩
    obtain ⟨source, hsource, hvalue⟩ := Option.bind_eq_some_iff.1 h
    unfold specifierNode? at hsource
    split at hsource
    · next hkind => exact .statement source hposition hkind hsource hvalue
    · split at hsource
      · next hcall =>
        obtain ⟨callee, hcallee, himport⟩ := Option.any_eq_true _ _ |>.1 hcall.2
        obtain ⟨list, hlist, hfirst⟩ := Option.bind_eq_some_iff.1 hsource
        exact .call callee list source hposition hcall.1 hcallee (by simpa using himport) hlist
          hfirst hvalue
      · cases hsource

theorem specifiers_eq (unit : SourceUnit) :
    unit.specifiers = ((List.range unit.nodes.size).filterMap unit.specifierAt?).eraseDups := rfl

/-- The specifiers of a unit are those that it mentions. -/
theorem mem_specifiers {unit : SourceUnit} {specifier : String} :
    specifier ∈ unit.specifiers ↔ ∃ position, unit.Mentions position specifier := by
  rw [specifiers_eq, List.mem_eraseDups, List.mem_filterMap]
  simp only [List.mem_range, mentions_iff]

end SourceUnit

namespace Load

open PathName

variable {fs : FileSystem} {project : Option ProjectConfig}

/-! ### The paths that may be meant -/

/-- The text of a path without the extension of a script. -/
theorem withoutScriptExtension_eq (path : String) :
    withoutScriptExtension path = path ∨ ∃ ending ∈ scriptExtensions,
      path.toList = (withoutScriptExtension path).toList ++ ending.toList := by
  unfold withoutScriptExtension
  cases hfound : scriptExtensions.findSome? fun ending =>
      Text.beforeSuffix? ending.toList path.toList with
  | none => exact Or.inl rfl
  | some before =>
    obtain ⟨ending, hending, hbefore⟩ := List.exists_of_findSome?_eq_some hfound
    refine Or.inr ⟨ending, hending, ?_⟩
    rw [Option.map_some, Option.getD_some, String.toList_ofList]
    exact Text.beforeSuffix?_eq_some_iff.1 hbefore

theorem slash_notMem_scriptExtensions : ∀ ending ∈ scriptExtensions, '/' ∉ ending.toList := by
  decide +kernel

theorem of_mem_sourceExtensions :
    ∀ extension ∈ sourceExtensions, '/' ∉ extension.toList ∧ 2 ≤ extension.toList.length := by
  decide +kernel

/-- The paths with a source extension are in the directory of the path, when that is in normal form
up to its last piece. -/
theorem exists_of_mem_withExtensions {n : NormalForm} {base path : String} {stem : List Char}
    (hbase : base.toList = n.front ++ stem) (hstem : '/' ∉ stem)
    (h : path ∈ withExtensions base) : ∃ name, path.toList = n.front ++ name ∧ IsName name := by
  obtain ⟨extension, he, rfl⟩ := List.mem_map.1 h
  obtain ⟨hslash, hlength⟩ := of_mem_sourceExtensions extension he
  refine ⟨stem ++ '.' :: extension.toList, ?_, isName_withExtension hstem hslash hlength⟩
  simp [hbase]

/-- A path that may be meant by a path in normal form is in normal form, from the same root. -/
theorem exists_of_mem_alternatives {n : NormalForm} {base path : String}
    (hbase : base.toList = n.text) (h : path ∈ alternatives fs base) :
    ∃ n' : NormalForm, path.toList = n'.text ∧ n'.rooted = n.rooted := by
  unfold alternatives at h
  rw [List.mem_append, List.mem_append] at h
  rcases h with (h | h) | h
  · split at h
    · rw [List.mem_singleton.1 h]
      exact ⟨n, hbase, rfl⟩
    · cases h
  · -- the last piece of the path loses one extension and gains another
    obtain ⟨above, last, htext, hlast, hrooted⟩ := exists_front n
    have hstem : ∃ stem, (withoutScriptExtension base).toList = above.front ++ stem ∧
        '/' ∉ stem := by
      rcases withoutScriptExtension_eq base with heq | ⟨ending, hending, heq⟩
      · exact ⟨last, by rw [heq, hbase, htext], hlast⟩
      · rw [hbase, htext] at heq
        obtain ⟨stem, hl, hb⟩ :=
          eq_append_of_front_append (slash_notMem_scriptExtensions ending hending) heq
        exact ⟨stem, hb, fun hs => hlast (by rw [hl]; exact List.mem_append_left _ hs)⟩
    obtain ⟨stem, hb, hs⟩ := hstem
    obtain ⟨name, hpath, hname⟩ := exists_of_mem_withExtensions hb hs h
    exact ⟨above.snoc name hname, by rw [hpath, text_snoc], hrooted⟩
  · split at h
    · have hb : (PathName.join base "index").toList = n.front ++ "index".toList := by
        rw [PathName.join, String.toList_ofList, hbase]
        exact joinChars_text n (by decide)
      obtain ⟨name, hpath, hname⟩ := exists_of_mem_withExtensions hb (by decide) h
      exact ⟨n.snoc name hname, by rw [hpath, text_snoc], rfl⟩
    · cases h

/-- A path that is found is a file, in normal form, from the root or not as the path looked up. -/
theorem exists_of_probe? {base path : String} (h : probe? fs base = some path) :
    fs.isFile path = true ∧
      ∃ n : NormalForm, path.toList = n.text ∧ n.rooted = isAbsolute base.toList := by
  obtain ⟨n, hn, hrooted⟩ := exists_normalize base
  unfold probe? at h
  refine ⟨List.find?_some h, ?_⟩
  obtain ⟨n', hn', hrooted'⟩ := exists_of_mem_alternatives hn (List.mem_of_find?_eq_some h)
  exact ⟨n', hn', hrooted'.trans hrooted⟩

/-! ### What specifiers lead to -/

/-- A specifier leads to what a path is found to be: one in the directory of the file, or one of the
project. -/
theorem exists_of_resolve? {file specifier path : String}
    (h : resolve? fs project file specifier = some path) :
    ∃ dir base, parent? file = some dir ∧ probe? fs base = some path ∧
      (base = PathName.join dir specifier ∨
        ∃ config, project = some config ∧ base ∈ config.candidates specifier) := by
  obtain ⟨dir, hdir, h⟩ := Option.bind_eq_some_iff.1 h
  split at h
  · exact ⟨dir, _, hdir, h, Or.inl rfl⟩
  · obtain ⟨config, hconfig, h⟩ := Option.bind_eq_some_iff.1 h
    obtain ⟨base, hbase, hprobe⟩ := List.exists_of_findSome?_eq_some h
    exact ⟨dir, base, hdir, hprobe, Or.inr ⟨config, hconfig, hbase⟩⟩

theorem isNormal_of_resolve? {file specifier path : String}
    (h : resolve? fs project file specifier = some path) :
    IsNormal path ∧ fs.isFile path = true := by
  obtain ⟨-, base, -, hprobe, -⟩ := exists_of_resolve? h
  obtain ⟨hfile, n, hn, -⟩ := exists_of_probe? hprobe
  exact ⟨⟨n, hn⟩, hfile⟩

/-- Whatever a specifier leads to is among the names of the files. -/
theorem mem_fileNames_of_resolve? {file specifier path : String}
    (h : resolve? fs project file specifier = some path) : path ∈ fs.fileNames :=
  FileSystem.mem_fileNames (isNormal_of_resolve? h).1 (isNormal_of_resolve? h).2

end Load

end RouteContract
