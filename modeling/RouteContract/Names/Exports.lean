import RouteContract.Names.Bindings

/-!
# Exports and the chains they form

A unit exports names: its own declarations, names of its top scope, namespaces of other units, and
names of other units. A name without an entry is looked for in the units of the star exports, in
order; `default` is never found there. `resolve?` follows a chain of re-exports to its end, a
binding or a namespace, in at most sixteen steps. An import binding is an alias, and `follow?` takes
it to the binding or namespace behind it.
-/

namespace RouteContract.Names

/-- What a unit exports under a name. -/
inductive Export where
  /-- A name of the top scope of the unit. -/
  | own (name : String)
  /-- A declaration or an expression. -/
  | node (id : NodeId)
  /-- A name of another unit. -/
  | again (unit : Nat) (name : String)
  /-- All exports of another unit, as one object. -/
  | module (unit : Nat)
  /-- A name of a unit that is not part of the program. -/
  | missing
deriving DecidableEq, Repr, Inhabited

/-- The exports of a unit: by name, and the units all of whose exports it passes on. -/
structure Exports where
  named : Entries Export := []
  stars : List Nat := []
deriving Repr, Inhabited

/-- What a chain of exports or aliases ends at. -/
inductive Target where
  | binding (id : NodeId)
  | module (unit : Nat)
deriving DecidableEq, Repr, Inhabited

variable (p : Program)

/-- Put an export under a name that has none. -/
def Exports.declare (e : Exports) (entry : String × NodeId) : Exports :=
  if Entries.has entry.1 e.named then e
  else { e with named := Entries.put entry.1 (.node entry.2) e.named }

/-- Put an export under a name. -/
def Exports.set (e : Exports) (name : String) (export_ : Export) : Exports :=
  { e with named := Entries.put name export_ e.named }

/-- The name that a node spells, quoted or not. -/
def spelled (id : NodeId) : String := (p.stringValue? id).getD (p.text id)

/-- The unit that a statement names as its source: nothing without a source, and nothing inside
when the source is not part of the program. -/
def sourceUnit? (unit : Nat) (statement : NodeId) : Option (Option Nat) :=
  ((p.field? statement "source").bind p.stringValue?).map (p.resolveImport unit)

/-- The exports of one specifier of an export clause. -/
def specifierExport? (source : Option (Option Nat)) (specifier : NodeId) :
    Option (String × Export) :=
  (p.field? specifier "name").map fun nameNode =>
    let name := spelled p nameNode
    let exported := match p.field? specifier "alias" with
      | some a => spelled p a
      | none => name
    (exported, match source with
      | some (some unit) => .again unit name
      | some none => .missing
      | none => .own name)

/-- Add the exports of a statement. -/
def addExports (unit : Nat) (e : Exports) (statement : NodeId) : Exports :=
  if p.kind statement ≠ "export_statement" then e
  else
    let source := sourceUnit? p unit statement
    match p.field? statement "declaration" with
    | some declaration =>
      if p.hasToken statement "default" then e.set "default" (.node declaration)
      else
        let declared := statementBindings p declaration
        (declared.values ++ declared.types).foldl Exports.declare e
    | none =>
      match p.field? statement "value" with
      | some value =>
        e.set "default" (if p.kind value = "identifier" then .own (p.text value) else .node value)
      | none =>
        match p.childOfKind? statement "export_clause" with
        | some clause =>
          ((p.namedChildren clause).filterMap (specifierExport? p source)).foldl
            (fun e entry => e.set entry.1 entry.2) e
        | none =>
          match p.childOfKind? statement "namespace_export" with
          | some part =>
            let name := match (p.namedChildren part).head? with
              | some n => p.text n
              | none => ""
            e.set name (match source with
              | some (some u) => .module u
              | _ => .missing)
          | none =>
            match p.hasToken statement "*", source with
            | true, some (some u) => { e with stars := e.stars ++ [u] }
            | _, _ => e

/-- The exports of a unit. -/
def exports (unit : Nat) : Exports :=
  (p.namedChildren (.root unit)).foldl (addExports p unit) {}

/-- The number of units that a chain of re-exports may pass. -/
def maxExportUnits : Nat := 17

/-- The exports of all units, each collected when it is first asked for. -/
def exportTable : Array (Thunk Exports) :=
  ((List.range p.units.size).map fun unit => Thunk.mk fun _ => exports p unit).toArray

/-- The exports of a unit, looked up in a table. -/
def exportsIn (table : Array (Thunk Exports)) (unit : Nat) : Exports :=
  match table[unit]? with
  | some e => e.get
  | none => exports p unit

/-- The end of a chain of re-exports through at most so many units. -/
def resolveWithin? (exportsOf : Nat → Exports) : Nat → Nat → String → Option Target
  | 0, _, _ => none
  | left + 1, unit, name =>
    let e := exportsOf unit
    match Entries.get? name e.named with
    | some (.own own) =>
      ((lookup p .value own (.root unit)).or (lookup p .type own (.root unit))).map .binding
    | some (.node id) => some (.binding id)
    | some (.again next exported) => resolveWithin? exportsOf left next exported
    | some (.module next) => some (.module next)
    | some .missing => none
    | none =>
      if name = "default" then none
      else e.stars.findSome? fun star => resolveWithin? exportsOf left star name

/-- What a unit exports under a name, at the end of the chain. Star exports can lead to one unit
along many chains, so the exports of a unit are collected once. -/
def resolve? (unit : Nat) (name : String) : Option Target :=
  let table := exportTable p
  resolveWithin? p (exportsIn p table) maxExportUnits unit name

/-- A unit has in the table what it exports. -/
theorem exportsIn_exportTable : exportsIn p (exportTable p) = exports p := by
  funext unit
  unfold exportsIn exportTable
  by_cases h : unit < p.units.size
  · simp [h, Thunk.get]
  · simp [h]

/-- What a binding is: a declaration, an alias of an imported name, or a whole unit. -/
inductive BindingKind where
  | declared
  | importBinding (source : Option Nat) (imported : String)
  | module (unit : Nat)
deriving DecidableEq, Repr, Inhabited

/-- The unit that the import statement around a binding names. -/
def importedUnit? (binding : NodeId) : Option Nat :=
  (((p.ancestorOfKind? binding ["import_statement"]).bind fun s => p.field? s "source").bind
    p.stringValue?).bind (p.resolveImport binding.unit)

/-- The name of a binding and what it is. -/
def describe (binding : NodeId) : String × BindingKind :=
  let kind := p.kind binding
  if kind = "import_specifier" then
    let imported := match p.field? binding "name" with
      | some n => spelled p n
      | none => ""
    let localName := match p.field? binding "alias" with
      | some a => p.text a
      | none => imported
    (localName, .importBinding (importedUnit? p binding) imported)
  else if kind = "namespace_import" then
    let name := match p.childOfKind? binding "identifier" with
      | some n => p.text n
      | none => ""
    (name, match importedUnit? p binding with
      | some unit => .module unit
      | none => .importBinding none "*")
  else if kind = "identifier" ∧ ((p.parent? binding).map p.kind) = some "import_clause" then
    (p.text binding, .importBinding (importedUnit? p binding) "default")
  else
    let named := (p.field? binding "name").or <| (p.field? binding "pattern").or <|
      p.field? binding "left"
    let name := match named with
      | some n => p.text n
      | none =>
        if kind = "identifier" ∨ kind = "shorthand_property_identifier_pattern" then p.text binding
        else "default"
    (name, .declared)

/-- The number of bindings that a chain of aliases may pass. -/
def maxAliases : Nat := 32

/-- The end of a chain of aliases through at most so many bindings. -/
def followWithin? : Nat → Target → Option Target
  | 0, _ => none
  | _ + 1, .module unit => some (.module unit)
  | left + 1, .binding id =>
    match (describe p id).2 with
    | .importBinding none _ => none
    | .importBinding (some unit) imported =>
      if imported = "*" then some (.module unit)
      else (resolve? p unit imported).bind (followWithin? left)
    | _ => some (.binding id)

/-- The binding or namespace behind a binding. -/
def follow? (binding : NodeId) : Option Target := followWithin? p maxAliases (.binding binding)

end RouteContract.Names
