import RouteContract.Yaml.Token

/-!
# Document trees

The tree of a YAML document: scalars, sequences, and mappings as rows of key and value. A key or
value that is left out is an empty plain scalar, and so is a text without content. A text is one
document. A start mark may stand before it, and after that mark the content may be left out; end
marks may stand after it.

Inside square brackets, the mark of a key that is left out takes the token after it along, whatever
that is: `[? : : a]` has an entry without a key, and `[?]` is not closed.
-/

namespace RouteContract.Yaml

/-- The tree of a document. -/
inductive Tree where
  | scalar (text : String) (plain : Bool)
  | seq (items : List Tree)
  | map (entries : List (Tree × Tree))
deriving Repr, Inhabited

namespace Tree

/-- What is left out. -/
def nothing : Tree := .scalar "" true

/-- Read a node if the next token is none of those that show that it is left out. -/
def unless? (ends : List Token) (read : List Token → Option (Tree × List Token))
    (ts : List Token) : Option (Tree × List Token) :=
  match ts with
  | [] => some (nothing, [])
  | t :: _ => if ends.contains t then some (nothing, ts) else read ts

mutual

/-- A node. Inside brackets there are no blocks; after a key, items may stand without a block. -/
def node? : Nat → Bool → Bool → List Token → Option (Tree × List Token)
  | 0, _, _, _ => none
  | fuel + 1, block, afterKey, ts =>
    match ts with
    | .item :: _ =>
      if afterKey then (looseItems? fuel ts).map fun (items, rest) => (.seq items, rest) else none
    | .scalar text plain :: rest => some (.scalar text plain, rest)
    | .flowSeqStart :: .flowSeqEnd :: rest => some (.seq [], rest)
    | .flowSeqStart :: rest => (flowItems? fuel rest).map fun (items, rest) => (.seq items, rest)
    | .flowMapStart :: .flowMapEnd :: rest => some (.map [], rest)
    | .flowMapStart :: rest =>
      (flowEntries? fuel rest).map fun (entries, rest) => (.map entries, rest)
    | .seqStart :: rest =>
      if block then (blockItems? fuel rest).map fun (items, rest) => (.seq items, rest) else none
    | .mapStart :: rest =>
      if block then (blockEntries? fuel rest).map fun (entries, rest) => (.map entries, rest)
      else none
    | _ => none

/-- The items of a block sequence, up to its end. -/
def blockItems? : Nat → List Token → Option (List Tree × List Token)
  | 0, _ => none
  | fuel + 1, ts =>
    match ts with
    | .blockEnd :: rest => some ([], rest)
    | .item :: rest => do
      let (item, rest) ← unless? [.item, .blockEnd] (node? fuel true false) rest
      let (more, rest) ← blockItems? fuel rest
      return (item :: more, rest)
    | _ => none

/-- The items that stand in the block of their key. -/
def looseItems? : Nat → List Token → Option (List Tree × List Token)
  | 0, _ => none
  | fuel + 1, ts =>
    match ts with
    | .item :: rest => do
      let (item, rest) ← unless? [.item, .key, .value, .blockEnd] (node? fuel true false) rest
      let (more, rest) ← looseItems? fuel rest
      return (item :: more, rest)
    | _ => some ([], ts)

/-- The entries of a block mapping, up to its end. -/
def blockEntries? : Nat → List Token → Option (List (Tree × Tree) × List Token)
  | 0, _ => none
  | fuel + 1, ts =>
    match ts with
    | .blockEnd :: rest => some ([], rest)
    | .key :: rest => do
      let (key, rest) ← unless? [.key, .value, .blockEnd] (node? fuel true true) rest
      let (value, rest) ← match rest with
        | .value :: rest => unless? [.key, .value, .blockEnd] (node? fuel true true) rest
        | rest => some (nothing, rest)
      let (more, rest) ← blockEntries? fuel rest
      return ((key, value) :: more, rest)
    | _ => none

/-- A value inside brackets, if there is one. -/
def flowValue? : Nat → Token → List Token → Option (Tree × List Token)
  | 0, _, _ => none
  | fuel + 1, close, ts =>
    match ts with
    | .value :: rest => unless? [.comma, close] (node? fuel false false) rest
    | rest => some (nothing, rest)

/-- The items inside brackets, up to the closing one; a key starts a mapping of one entry. -/
def flowItems? : Nat → List Token → Option (List Tree × List Token)
  | 0, _ => none
  | fuel + 1, ts =>
    match ts with
    | .flowSeqEnd :: rest => some ([], rest)
    | _ => do
      let (item, rest) ← match ts with
        | .key :: t :: rest => do
          let (key, rest) ← if [.value, .comma, .flowSeqEnd].contains t then some (nothing, rest)
            else node? fuel false false (t :: rest)
          let (value, rest) ← flowValue? fuel .flowSeqEnd rest
          some (Tree.map [(key, value)], rest)
        | ts => node? fuel false false ts
      match rest with
      | .comma :: rest => do
        let (more, rest) ← flowItems? fuel rest
        return (item :: more, rest)
      | .flowSeqEnd :: rest => return ([item], rest)
      | _ => none

/-- The entries inside braces, up to the closing one. -/
def flowEntries? : Nat → List Token → Option (List (Tree × Tree) × List Token)
  | 0, _ => none
  | fuel + 1, ts =>
    match ts with
    | .flowMapEnd :: rest => some ([], rest)
    | _ => do
      let (entry, rest) ← match ts with
        | .key :: rest => do
          let (key, rest) ← unless? [.value, .comma, .flowMapEnd] (node? fuel false false) rest
          let (value, rest) ← flowValue? fuel .flowMapEnd rest
          some ((key, value), rest)
        | ts => (node? fuel false false ts).map fun (key, rest) => ((key, nothing), rest)
      match rest with
      | .comma :: rest => do
        let (more, rest) ← flowEntries? fuel rest
        return (entry :: more, rest)
      | .flowMapEnd :: rest => return ([entry], rest)
      | _ => none

end

/-- The tree of a row of tokens. -/
def ofTokens? (ts : List Token) : Option Tree := do
  let fuel := 2 * ts.length + 2
  let (tree, rest) ← match ts with
    | [] => some (nothing, [])
    | .documentStart :: rest =>
      unless? [.documentEnd, .documentStart] (node? fuel true false) rest
    | ts => node? fuel true false ts
  if rest.all (· = .documentEnd) then some tree else none

/-- The tree of a text. -/
def parse? (text : String) : Option Tree := (tokens? text).bind ofTokens?

end Tree

end RouteContract.Yaml
