import Mathlib
import RouteContract.Proofs.Json.Entries
import RouteContract.Proofs.Schema.Independence

/-!
# Describing a type again changes nothing

A description enters a name only when it is not in the table, and it never takes one out. So from
any table that has the names a first description has left, the same description enters nothing:
`Settles x` is this with the growth of the names, which carries it through a sequence of
descriptions. What is returned is the same from every table by `TableFree`.
-/

namespace RouteContract.Schema

/-- A description keeps the names of the table, and enters nothing once they are all there. -/
structure Settles {α : Type} (x : Gen Id α) : Prop where
  keeps : ∀ T, ∀ n ∈ Entries.names T, n ∈ Entries.names (x.run T).2
  leaves : ∀ T T', (∀ n ∈ Entries.names (x.run T).2, n ∈ Entries.names T') → (x.run T').2 = T'

section Rules

variable {α β : Type}

theorem settles_pure (a : α) : Settles (pure a : Gen Id α) :=
  ⟨fun _ _ => id, fun _ _ _ => rfl⟩

theorem settles_ask (q : Id α) : Settles (ask q) :=
  ⟨fun _ _ => id, fun _ _ _ => rfl⟩

theorem Settles.bind {x : Gen Id α} {f : α → Gen Id β} (hx : Settles x) (hfree : TableFree x)
    (hf : ∀ a, Settles (f a)) : Settles (x >>= f) where
  keeps T n hn := (hf _).keeps _ n (hx.keeps T n hn)
  leaves T T' h := by
    have hrest := hf (x.run T).1
    have hleft : (x.run T').2 = T' := hx.leaves T T' fun n hn => h n (hrest.keeps _ n hn)
    show ((f (x.run T').1).run (x.run T').2).2 = T'
    rw [hleft, hfree T' T]
    exact hrest.leaves (x.run T).2 T' h

theorem settles_ask_bind {q : Id α} {f : α → Gen Id β} (hf : ∀ a, Settles (f a)) :
    Settles (ask q >>= f) := (settles_ask q).bind (tableFree_ask q) hf

theorem settles_mapM {f : α → Gen Id β} (hf : ∀ a, Settles (f a)) (hfree : ∀ a, TableFree (f a))
    (l : List α) : Settles (l.mapM f) := by
  induction l with
  | nil => exact settles_pure []
  | cons a l ih =>
    rw [List.mapM_cons]
    exact (hf a).bind (hfree a) fun b => ih.bind (tableFree_mapM hfree l) fun bs => settles_pure _

theorem settles_foldlM {f : β → α → Gen Id β} (hf : ∀ b a, Settles (f b a))
    (hfree : ∀ b a, TableFree (f b a)) (l : List α) (b : β) : Settles (l.foldlM f b) := by
  induction l generalizing b with
  | nil => exact settles_pure b
  | cons a l ih =>
    rw [List.foldlM_cons]
    exact (hf b a).bind (hfree b a) ih

end Rules

section Generation

variable (o : Oracle Id) {sub : TypeId → Gen Id Schema} (hsub : ∀ t, Settles (sub t))
  (hfree : ∀ t, TableFree (sub t))
include hsub hfree

theorem settles_ofUnion (t : TypeId) : Settles (ofUnion o sub t) := by
  refine settles_ask_bind fun members => settles_ask_bind fun shapes => ?_
  split
  · exact settles_pure _
  · exact (settles_mapM hsub hfree members).bind (tableFree_mapM hfree members) fun _ =>
      settles_pure _

theorem settles_addProperty (s : Schema) (property : SymbolId) :
    Settles (addProperty o sub s property) := by
  refine settles_ask_bind fun name => ?_
  split
  · exact settles_pure s
  refine settles_ask_bind fun container => ?_
  split
  · exact settles_pure s
  refine settles_ask_bind fun t => settles_ask_bind fun calls => ?_
  split
  · exact settles_pure s
  refine settles_ask_bind fun shape => ?_
  split
  · exact settles_pure s
  refine settles_ask_bind fun isOptional => ?_
  exact (hsub t).bind (hfree t) fun described => settles_ask_bind fun doc => settles_pure _

theorem settles_ofObject (t : TypeId) : Settles (ofObject o sub t) :=
  settles_ask_bind fun properties =>
    settles_foldlM (settles_addProperty o hsub hfree) (tableFree_addProperty o hfree) properties _

/-- Of two descriptions of a named type the first enters the name and the second finds it. -/
theorem settles_ofNamed (name : String) (t : TypeId) : Settles (ofNamed o sub name t) := by
  have enters : ∀ T, ((ofNamed o sub name t).run T).2 =
      if Entries.has name T then T
      else ((ofObject o sub t).run (T.put name {})).2.put name
        ((ofObject o sub t).run (T.put name {})).1 := by
    intro T
    rw [ofNamed, StateT.run_bind, StateT.run_get, pure_bind]
    split <;> rfl
  have hobject := settles_ofObject o hsub hfree t
  constructor
  · intro T n hn
    rw [enters]
    split
    · exact hn
    · have hmembers := hobject.keeps (T.put name {}) n (Entries.mem_names_put.2 (Or.inr hn))
      exact Entries.mem_names_put.2 (Or.inr hmembers)
  · intro T T' h
    have hname : name ∈ Entries.names T' := by
      refine h name ?_
      rw [enters]
      split
      · next hhas => exact Entries.has_iff.1 hhas
      · exact Entries.mem_names_put.2 (Or.inl rfl)
    rw [enters, if_pos (Entries.has_iff.2 hname)]

theorem settles_ofObjectLike (t : TypeId) : Settles (ofObjectLike o sub t) := by
  refine settles_ask_bind fun name => ?_
  split
  · split
    · exact settles_pure _
    · split
      · exact settles_ofObject o hsub hfree t
      · exact settles_ofNamed o hsub hfree _ t
  · exact settles_ofObject o hsub hfree t

theorem settles_ofSettled (t : TypeId) (name : Option String) :
    Settles (ofSettled o sub t name) := by
  refine settles_ask_bind fun shape => ?_
  split
  · exact settles_pure _
  split
  · exact settles_pure _
  refine settles_ask_bind fun isTuple => ?_
  split
  · refine settles_ask_bind fun arguments => ?_
    split
    · exact (hsub _).bind (hfree _) fun items => settles_pure _
    · rw [pure_bind]
      exact settles_pure _
  split
  · exact settles_ask_bind fun values => settles_pure _
  · exact settles_ofUnion o hsub hfree t
  · exact settles_ask_bind fun members =>
      (settles_mapM hsub hfree members).bind (tableFree_mapM hfree members) fun _ => settles_pure _
  · exact settles_pure _
  · exact settles_pure _
  · exact settles_pure _
  · exact settles_ofObjectLike o hsub hfree t
  · exact settles_ofObjectLike o hsub hfree t
  · exact settles_pure _

end Generation

variable (o : Oracle Id)

theorem settles_ofTypeWithin (left : Nat) (t : TypeId) : Settles (ofTypeWithin o left t) := by
  induction left generalizing t with
  | zero => exact settles_pure _
  | succ left ih =>
    refine settles_ask_bind fun settled => ?_
    split
    · exact settles_ofSettled o ih (tableFree_ofTypeWithin o left) _ _
    · exact settles_pure _

/-- **A description does not depend on the table, and a second one leaves it alone.** From any two
tables a type is described by the same schema at any depth. When it is described again, after
descriptions of any types in between, the schema is the one of the first time and the table stays as
it is. -/
theorem ofType_again (o : Oracle Id) :
    (∀ left t T T', ((ofTypeWithin o left t).run T).1 = ((ofTypeWithin o left t).run T').1) ∧
    ∀ (t : TypeId) (between : List TypeId) (T : Entries Schema),
      let first := (ofType o t).run T
      let later := ((between.mapM (ofType o)).run first.2).2
      (ofType o t).run later = (first.1, later) := by
  refine ⟨fun left t => tableFree_ofTypeWithin o left t, fun t between T => ?_⟩
  intro first later
  have hlater : ∀ n ∈ Entries.names first.2, n ∈ Entries.names later :=
    (settles_mapM (settles_ofTypeWithin o maxNesting) (tableFree_ofType o) between).keeps first.2
  have htable := (settles_ofTypeWithin o maxNesting t).leaves T later hlater
  exact Prod.ext (tableFree_ofType o t later T) htable

end RouteContract.Schema
