import Mathlib
import RouteContract.Proofs.Types.Following.Tables

/-!
# Following the steps that remember their answers

The types of expressions, of aliases and the members of types are looked up. What the known run is
looking for is cut off in both runs. Anything else the known run remembers at its end, so it is
found in the shared memory as well (`Tied.lookup`).
-/

namespace RouteContract.Types

open Filter

variable {p : Program} {C : Course p} {own : Side → Option TypeId} {steps : Calls}
  {M M' : Side → Memory}

theorem Tied.seeking (h : Tied C own M) (s : Side) : Seeking p (C.marks s) (M s) := by
  cases s
  · exact h.known
  · exact h.shared.toSeeking

theorem Course.mem_marks (C : Course p) {key : Key} (h : key ∈ C.marks .known) (s : Side) :
    key ∈ C.marks s := by
  cases s
  · exact h
  · exact C.marks_subset h

/-- A step of each run, that of the shared run to a memory that is in step. -/
theorem Tied.step (h : Tied C own M) {N R : Memory} (hN : Sound p N)
    (hg : (M .known).Grows p none N) (hR : InStep p (C.marks .shared) R)
    (hg' : (M .shared).Grows p none R) :
    Tied C own (Side.pair N R) ∧ Onward p M (Side.pair N R) := by
  have hE : Onward p M (Side.pair N R) := ⟨h.sound, Side.forall_iff.2 ⟨hg.tables, hg'.tables⟩⟩
  refine ⟨⟨h.known.later hN hg.tables hg.resumes, hR, fun o ho => ?_⟩, hE⟩
  exact (h.own o ho).grow C.apart hE (Side.forall_iff.2 ⟨hN, hR.sound⟩)
    (Side.forall_iff.2 ⟨hg, hg'⟩)

/-- What the known run looks up, other than what it is looking for already, is found in the shared
memory. -/
theorem Tied.lookup [steps.Moving (Drift.moves p)] (hM : Tied C own M) (hk : steps.Keep p)
    (l l' : Lookup) (hfits : l.Fits p (M .known)) (hfits' : l'.Fits p (M .shared))
    (hkey : l'.key (M .shared) = l.key (M .known)) (hmark : l.key (M .known) ∉ C.marks .known)
    {found : l.Found} {N : Memory} (hrun : (l.run p steps).run (M .known) = some (found, N))
    (hN : N.Within C.final) :
    ∃ found' R, (∀ᶠ n in atTop, (l'.run p (calls p n)).run (M .shared) = some (found', R)) ∧
      (Tied C own (Side.pair N R) ∧ Onward p M (Side.pair N R)) ∧
      l.FoundIn p found N ∧ l'.FoundIn p found' R ∧ l.answer N found = l'.answer R found' := by
  have hgrows : (M .known).Grows p none N := Moves.grows (Lookup.moving_run.moves hrun)
  obtain ⟨hsound, -, hin⟩ := ensures_option_iff.1
    (Lookup.keeps_run hk hfits hM.known.sound) found N hrun
  -- the answer of the known run is remembered at its end
  have hremembers := hsound.remembers_mono hN (Lookup.remembers_of_run hM.known.sound hfits
    (fun h => hmark ((hM.known.looksFor _).1 h)) hrun)
  obtain ⟨found', R, hev, hR, hanswer⟩ := (C.found hremembers).2 _ l' hM.shared hfits' hkey
  obtain ⟨n, hn⟩ := hev.exists
  have hgrows' : (M .shared).Grows p none R := Moves.grows (Lookup.moving_run.moves hn)
  obtain ⟨-, -, hin'⟩ := ensures_option_iff.1
    (Lookup.keeps_run (keeps_calls p n) hfits' hM.shared.sound) found' R hn
  exact ⟨found', R, hev, hM.step hsound hgrows hR hgrows', hin, hin', hanswer.symm⟩

/-! ### Expressions -/

theorem run_valueType_marked {N : Memory} {node : NodeId} (hnone : N.nodeTypes.lookup node = none)
    (hmark : node ∈ N.inferring) (c : Calls) :
    (valueType p c node).run N = anyType.run N := by
  rw [valueType, reads_get.run_bind, hnone]
  dsimp only
  rw [if_pos (List.contains_iff_mem.2 hmark)]

theorem follows_valueType [steps.Moving (Drift.moves p)] (hk : steps.Keep p) (node : NodeId) :
    Follows C own steps (fun _ c => valueType p c node) M AlikeType := by
  refine follows_of_tied fun hM => ?_
  by_cases hmark : Key.value node ∈ C.marks .known
  · refine follows_anyType.congr fun s c => run_valueType_marked ?_ ?_ c
    · exact Memory.nodeTypes_eq_none ((hM.seeking s).unanswered _ (C.mem_marks hmark s))
    · exact looksFor_value_iff.1 (((hM.seeking s).looksFor _).2 (C.mem_marks hmark s))
  intro _ t N hrun hN
  obtain ⟨t', R, hev, ⟨htied, hE⟩, ht, ht', heq⟩ :=
    hM.lookup hk (.value node) (.value node) trivial trivial rfl hmark hrun hN
  exact ⟨Side.pair t t', Side.pair N R, rfl, rfl, hev, htied, hE,
    Side.forall_iff.2 ⟨ht, ht'⟩, Answer.type.inj heq⟩

/-! ### Aliases -/

theorem run_knownAlias_marked {N : Memory} {decl : NodeId} {args : List TypeId}
    (hnone : N.aliases.lookup (decl, args) = none) (hmark : (decl, args) ∈ N.resolving)
    (r : SymbolId) (c : Calls) : (knownAlias p c decl r args).run N = anyType.run N := by
  rw [knownAlias, reads_get.run_bind, hnone]
  dsimp only
  rw [if_pos (List.contains_iff_mem.2 hmark)]

theorem follows_knownAlias [steps.Moving (Drift.moves p)] (hk : steps.Keep p) {decl : NodeId}
    {r : Side → SymbolId} {args : List (Side → TypeId)} (h : ∀ t ∈ args, AlikeType t M)
    (hr : ∀ s, (M s).keyOf? (r s) = some (.decl decl))
    (hd : p.kind decl = "type_alias_declaration") :
    Follows C own steps (fun s c => knownAlias p c decl (r s) (args.map (· s))) M AlikeType := by
  refine follows_of_tied fun hM => ?_
  have hargs := typesIn_of_alike h
  have hkey : ∀ s, Key.synonym decl ((args.map (· s)).map (M s).tree) =
      .synonym decl ((args.map (· .known)).map (M .known).tree) :=
    Side.forall_iff.2 ⟨rfl, by rw [trees_eq_of_alike h]⟩
  by_cases hmark : Key.synonym decl ((args.map (· .known)).map (M .known).tree) ∈ C.marks .known
  · have hmarks : ∀ s, Key.synonym decl ((args.map (· s)).map (M s).tree) ∈ C.marks s := fun s =>
      hkey s ▸ C.mem_marks hmark s
    refine follows_anyType.congr fun s c => run_knownAlias_marked ?_ ?_ _ c
    · exact Memory.aliases_eq_none (hargs s) ((hM.seeking s).unanswered _ (hmarks s))
    · exact ((hM.sound s).looksFor_synonym_iff (hargs s)).1
        (((hM.seeking s).looksFor _).2 (hmarks s))
  intro _ t N hrun hN
  obtain ⟨t', R, hev, ⟨htied, hE⟩, ht, ht', heq⟩ :=
    hM.lookup hk (.synonym decl _ _) (.synonym decl _ _) ⟨hd, hr .known, hargs .known⟩
      ⟨hd, hr .shared, hargs .shared⟩ (hkey .shared) hmark hrun hN
  exact ⟨Side.pair t t', Side.pair N R, rfl, rfl, hev, htied, hE,
    Side.forall_iff.2 ⟨ht, ht'⟩, Answer.type.inj heq⟩

/-! ### Members -/

theorem run_membersOf_marked {N : Memory} {t : TypeId} (hnone : N.members.lookup t = none)
    (hmark : t ∈ N.collecting) (c : Calls) : (membersOf p c t).run N = some ([], N) := by
  rw [membersOf, reads_get.run_bind, hnone]
  dsimp only
  rw [if_pos (List.contains_iff_mem.2 hmark)]
  rfl

theorem follows_membersOf [steps.Moving (Drift.moves p)] (hk : steps.Keep p) {t : Side → TypeId}
    (ht : AlikeType t M) :
    Follows C own steps (fun s c => membersOf p c (t s)) M (Each AlikeSymbol) := by
  refine follows_of_tied fun hM => ?_
  have hkey : ∀ s, Key.members ((M s).tree (t s)) = .members ((M .known).tree (t .known)) :=
    Side.forall_iff.2 ⟨rfl, by rw [ht.2]⟩
  by_cases hmark : Key.members ((M .known).tree (t .known)) ∈ C.marks .known
  · have hmarks : ∀ s, Key.members ((M s).tree (t s)) ∈ C.marks s := fun s =>
      hkey s ▸ C.mem_marks hmark s
    refine follows_reads (b := fun _ => []) (fun s c => run_membersOf_marked ?_ ?_ c)
      ⟨[], rfl, fun _ h => absurd h List.not_mem_nil⟩
    · exact Memory.members_eq_none (ht.1 s) ((hM.seeking s).unanswered _ (hmarks s))
    · exact ((hM.sound s).looksFor_members_iff (ht.1 s)).1
        (((hM.seeking s).looksFor _).2 (hmarks s))
  intro _ found N hrun hN
  obtain ⟨found', R, hev, ⟨htied, hE⟩, hin, hin', heq⟩ :=
    hM.lookup hk (.members _) (.members _) (ht.1 .known) (ht.1 .shared)
      (hkey .shared) hmark hrun hN
  obtain ⟨each, heach, hall⟩ := exists_each_of_map_eq (Answer.members.inj heq)
  exact ⟨Side.pair found found', Side.pair N R, rfl, rfl, hev, htied, hE, each, heach,
    fun a ha => ⟨Side.forall_iff.2 ⟨(hin _ (hall a ha).2.1).symbolIn,
      (hin' _ (hall a ha).2.2).symbolIn⟩, (hall a ha).1⟩⟩

end RouteContract.Types
