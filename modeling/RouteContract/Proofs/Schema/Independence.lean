import Mathlib
import RouteContract.Schema.Generator

/-!
# The schema of a type does not depend on the table

A named type is described by the same reference whether its entry is there or not, so over an oracle
that is a fixed function of its arguments the table decides only what is entered, never what is
returned. `TableFree x` says this of a description.
-/

namespace RouteContract.Schema

/-- A description returns the same from every table. -/
def TableFree {α : Type} (x : Gen Id α) : Prop := ∀ T T', (x.run T).1 = (x.run T').1

section

variable {α β : Type}

theorem tableFree_pure (a : α) : TableFree (pure a : Gen Id α) := fun _ _ => rfl

theorem TableFree.bind {x : Gen Id α} {f : α → Gen Id β} (hx : TableFree x)
    (hf : ∀ a, TableFree (f a)) : TableFree (x >>= f) := by
  intro T T'
  show ((f (x.run T).1).run (x.run T).2).1 = ((f (x.run T').1).run (x.run T').2).1
  rw [hx T T']
  exact hf _ _ _

theorem tableFree_ask (q : Id α) : TableFree (ask q) := fun _ _ => rfl

theorem tableFree_mapM {f : α → Gen Id β} (hf : ∀ a, TableFree (f a)) (l : List α) :
    TableFree (l.mapM f) := by
  induction l with
  | nil => exact tableFree_pure []
  | cons a l ih =>
    rw [List.mapM_cons]
    exact (hf a).bind fun b => ih.bind fun bs => tableFree_pure _

theorem tableFree_foldlM {f : β → α → Gen Id β} (hf : ∀ b a, TableFree (f b a)) (l : List α)
    (b : β) : TableFree (l.foldlM f b) := by
  induction l generalizing b with
  | nil => exact tableFree_pure b
  | cons a l ih =>
    rw [List.foldlM_cons]
    exact (hf b a).bind ih

end

variable (o : Oracle Id) {sub : TypeId → Gen Id Schema}

theorem tableFree_ofUnion (hsub : ∀ t, TableFree (sub t)) (t : TypeId) :
    TableFree (ofUnion o sub t) := by
  refine (tableFree_ask _).bind fun members => (tableFree_ask _).bind fun shapes => ?_
  split
  · exact tableFree_pure _
  · exact (tableFree_mapM hsub members).bind fun _ => tableFree_pure _

theorem tableFree_addProperty (hsub : ∀ t, TableFree (sub t)) (s : Schema) (property : SymbolId) :
    TableFree (addProperty o sub s property) := by
  refine (tableFree_ask _).bind fun name => ?_
  split
  · exact tableFree_pure s
  refine (tableFree_ask _).bind fun container => ?_
  split
  · exact tableFree_pure s
  refine (tableFree_ask _).bind fun t => (tableFree_ask _).bind fun calls => ?_
  split
  · exact tableFree_pure s
  refine (tableFree_ask _).bind fun shape => ?_
  split
  · exact tableFree_pure s
  refine (tableFree_ask _).bind fun isOptional => ?_
  exact (hsub t).bind fun described => (tableFree_ask _).bind fun doc => tableFree_pure _

theorem tableFree_ofObject (hsub : ∀ t, TableFree (sub t)) (t : TypeId) :
    TableFree (ofObject o sub t) :=
  (tableFree_ask _).bind fun properties =>
    tableFree_foldlM (tableFree_addProperty o hsub) properties _

/-- A named type is described by a reference, from every table. -/
theorem ofNamed_eq_referring (name : String) (t : TypeId) (T : Entries Schema) :
    ((ofNamed o sub name t).run T).1 = referring name := by
  rw [ofNamed, StateT.run_bind, StateT.run_get, pure_bind]
  split
  · rfl
  · rfl

theorem tableFree_ofNamed (name : String) (t : TypeId) : TableFree (ofNamed o sub name t) :=
  fun T T' => (ofNamed_eq_referring o name t T).trans (ofNamed_eq_referring o name t T').symm

theorem tableFree_ofObjectLike (hsub : ∀ t, TableFree (sub t)) (t : TypeId) :
    TableFree (ofObjectLike o sub t) := by
  refine (tableFree_ask _).bind fun name => ?_
  split
  · split
    · exact tableFree_pure _
    · split
      · exact tableFree_ofObject o hsub t
      · exact tableFree_ofNamed o _ t
  · exact tableFree_ofObject o hsub t

theorem tableFree_ofSettled (hsub : ∀ t, TableFree (sub t)) (t : TypeId) (name : Option String) :
    TableFree (ofSettled o sub t name) := by
  refine (tableFree_ask _).bind fun shape => ?_
  split
  · exact tableFree_pure _
  split
  · exact tableFree_pure _
  refine (tableFree_ask _).bind fun isTuple => ?_
  split
  · refine (tableFree_ask _).bind fun arguments => ?_
    split
    · exact (hsub _).bind fun items => tableFree_pure _
    · exact (tableFree_pure _).bind fun items => tableFree_pure _
  split
  · exact (tableFree_ask _).bind fun values => tableFree_pure _
  · exact tableFree_ofUnion o hsub t
  · exact (tableFree_ask _).bind fun members =>
      (tableFree_mapM hsub members).bind fun _ => tableFree_pure _
  · exact tableFree_pure _
  · exact tableFree_pure _
  · exact tableFree_pure _
  · exact tableFree_ofObjectLike o hsub t
  · exact tableFree_ofObjectLike o hsub t
  · exact tableFree_pure _

theorem tableFree_ofTypeWithin (left : Nat) (t : TypeId) : TableFree (ofTypeWithin o left t) := by
  induction left generalizing t with
  | zero => exact tableFree_pure _
  | succ left ih =>
    refine (tableFree_ask _).bind fun settled => ?_
    split
    · exact tableFree_ofSettled o ih _ _
    · exact tableFree_pure _

/-- The schema of a type is the same from every table. -/
theorem tableFree_ofType (t : TypeId) : TableFree (ofType o t) :=
  tableFree_ofTypeWithin o maxNesting t

end RouteContract.Schema
