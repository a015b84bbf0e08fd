import BootConfig.Yaml.Event.Node

/-!
# Collections

The entries of block collections, each behind its indicator, and of flow collections, each behind a
comma. A key, value or entry that is missing is the empty scalar.
-/

namespace BootConfig.Yaml

namespace Parse

/-! ## Block collections -/

def blockEntry (began : Mark) : Parse Event := do
  let t ← peek
  match t.kind with
  | .blockEntry =>
    skip
    match (← peek).kind with
    | .blockEntry | .blockEnd => noNode t.stop (.blockEntry began)
    | _ =>
      later (.blockEntry began)
      node true false
  | .blockEnd =>
    skip
    complete
    return ⟨.sequenceEnd, t.start, t.stop⟩
  | _ => fail .missingDash t.start (some (.blockCollection, began))

def indentlessEntry : Parse Event := do
  let t ← peek
  match t.kind with
  | .blockEntry =>
    skip
    match (← peek).kind with
    | .blockEntry | .key | .value | .blockEnd => noNode t.stop .indentlessEntry
    | _ =>
      later .indentlessEntry
      node true false
  | _ =>
    complete
    return ⟨.sequenceEnd, t.start, t.start⟩

/-- A key or value of a block mapping, behind its indicator. -/
def blockPart (indicatorEnd : Mark) (e : Expect) : Parse Event := do
  match (← peek).kind with
  | .key | .value | .blockEnd => noNode indicatorEnd e
  | _ =>
    later e
    node true true

def blockKey (began : Mark) : Parse Event := do
  let t ← peek
  match t.kind with
  | .key =>
    skip
    blockPart t.stop (.blockValue began)
  | .blockEnd =>
    skip
    complete
    return ⟨.mappingEnd, t.start, t.stop⟩
  | _ => fail .missingKey t.start (some (.blockMapping, began))

def blockValue (began : Mark) : Parse Event := do
  let t ← peek
  match t.kind with
  | .value =>
    skip
    blockPart t.stop (.blockKey began)
  | _ => noNode t.start (.blockKey began)

/-! ## Flow collections -/

/-- The end of a flow collection. -/
def closed (kind : Event.Kind) : Parse Event := do
  let t ← peek
  skip
  complete
  return ⟨kind, t.start, t.stop⟩

/-- An entry of a flow sequence. One with a key indicator is a mapping of a single pair. -/
def flowEntry (first : Bool) (began : Mark) : Parse Event := do
  if (← peek).kind = .flowSequenceEnd then closed .sequenceEnd
  else
    if !first then
      let t ← peek
      if t.kind ≠ .flowEntry then fail .missingSequenceComma t.start (some (.flowSequence, began))
      skip
    let t ← peek
    match t.kind with
    | .key =>
      skip
      next (.pairKey began)
      return ⟨.mappingStart .none, t.start, t.stop⟩
    | .flowSequenceEnd => closed .sequenceEnd
    | _ =>
      later (.flowEntry false began)
      node false false

/-- The key of a single pair. Where it is missing, the token that shows this is taken with it. -/
def pairKey (began : Mark) : Parse Event := do
  let t ← peek
  match t.kind with
  | .value | .flowEntry | .flowSequenceEnd =>
    skip
    noNode t.stop (.pairValue began)
  | _ =>
    later (.pairValue began)
    node false false

def pairValue (began : Mark) : Parse Event := do
  let t ← peek
  match t.kind with
  | .value =>
    skip
    let t ← peek
    match t.kind with
    | .flowEntry | .flowSequenceEnd => noNode t.start (.pairEnd began)
    | _ =>
      later (.pairEnd began)
      node false false
  | _ => noNode t.start (.pairEnd began)

def pairEnd (began : Mark) : Parse Event := do
  let t ← peek
  next (.flowEntry false began)
  return ⟨.mappingEnd, t.start, t.start⟩

/-- A key of a flow mapping. One without a key indicator stands without a value. -/
def flowKey (first : Bool) (began : Mark) : Parse Event := do
  if (← peek).kind = .flowMappingEnd then closed .mappingEnd
  else
    if !first then
      let t ← peek
      if t.kind ≠ .flowEntry then fail .missingMappingComma t.start (some (.flowMapping, began))
      skip
    match (← peek).kind with
    | .key =>
      skip
      let t ← peek
      match t.kind with
      | .value | .flowEntry | .flowMappingEnd => noNode t.start (.flowValue began)
      | _ =>
        later (.flowValue began)
        node false false
    | .flowMappingEnd => closed .mappingEnd
    | _ =>
      later (.flowNoValue began)
      node false false

def flowValue (began : Mark) : Parse Event := do
  let t ← peek
  match t.kind with
  | .value =>
    skip
    let t ← peek
    match t.kind with
    | .flowEntry | .flowMappingEnd => noNode t.start (.flowKey false began)
    | _ =>
      later (.flowKey false began)
      node false false
  | _ => noNode t.start (.flowKey false began)

def flowNoValue (began : Mark) : Parse Event := do
  noNode (← peek).start (.flowKey false began)

end Parse

end BootConfig.Yaml
