import BootConfig.Yaml.Event.Grammar

/-!
# Nodes

A node is an alias, or an anchor and a tag, in either order and both optional, with what they stand
in front of.
-/

namespace BootConfig.Yaml

namespace Parse

/-- A tag with its handle replaced. -/
def resolveTag (handle : String) (suffix : TagText) (nodeMark tagMark : Mark) : Parse TagText := do
  if handle.isEmpty then return suffix
  match (← get).handles.find? (·.1 = handle) with
  | some (_, replacement) => return replacement ++ suffix
  | none => fail .undefinedHandle tagMark (some (.node, nodeMark))

/-- The properties as written: an anchor and the handle and suffix of a tag with its place. -/
structure Written where
  anchor : Option String
  tag : Option (String × TagText × Mark)
  start : Mark
  stop : Mark

/-- An anchor, if the next token is one. -/
def anchor? : Parse (Option (String × Token)) := do
  let t ← peek
  match t.kind with
  | .anchor name =>
    skip
    return some (name, t)
  | _ => return none

/-- A tag, if the next token is one. -/
def tag? : Parse (Option (String × TagText × Token)) := do
  let t ← peek
  match t.kind with
  | .tag handle suffix =>
    skip
    return some (handle, suffix, t)
  | _ => return none

/-- An anchor and a tag in either order. -/
def written : Parse Written := do
  let here := (← peek).start
  match ← anchor? with
  | some (name, a) =>
    match ← tag? with
    | some (handle, suffix, t) =>
        return ⟨some name, some (handle, suffix, t.start), a.start, t.stop⟩
    | none => return ⟨some name, none, a.start, a.stop⟩
  | none =>
    match ← tag? with
    | some (handle, suffix, t) =>
      match ← anchor? with
      | some (name, a) => return ⟨some name, some (handle, suffix, t.start), t.start, a.stop⟩
      | none => return ⟨none, some (handle, suffix, t.start), t.start, t.stop⟩
    | none => return ⟨none, none, here, here⟩

def properties (w : Written) : Parse Properties := do
  match w.tag with
  | some (handle, suffix, tagMark) =>
      return ⟨w.anchor, some (← resolveTag handle suffix w.start tagMark)⟩
  | none => return ⟨w.anchor, none⟩

/-- A node that is not an alias, behind its properties. A scalar keeps its tag, the lone `!` too. -/
def contentAfter (inBlock indentless : Bool) (w : Written) (p : Properties) : Parse Event := do
  let t ← peek
  match t.kind with
  | .blockEntry =>
    if indentless then
      next .indentlessEntry
      return ⟨.sequenceStart p, w.start, t.stop⟩
    else missing t
  | .scalar style text =>
    skip
    complete
    return ⟨.scalar p style text, w.start, t.stop⟩
  | .flowSequenceStart => opened t (.flowEntry true t.start) (.sequenceStart p)
  | .flowMappingStart => opened t (.flowKey true t.start) (.mappingStart p)
  | .blockSequenceStart =>
      if inBlock then opened t (.blockEntry t.start) (.sequenceStart p) else missing t
  | .blockMappingStart =>
      if inBlock then opened t (.blockKey t.start) (.mappingStart p) else missing t
  | _ => missing t
where
  opened (t : Token) (e : Expect) (kind : Event.Kind) : Parse Event := do
    skip
    next e
    return ⟨kind, w.start, t.stop⟩
  missing (t : Token) : Parse Event := do
    if w.anchor.isSome || w.tag.isSome then
      complete
      return ⟨.scalar p .plain "", w.start, w.stop⟩
    else
      fail .missingContent t.start (some (if inBlock then .blockNode else .flowNode, w.start))

/-- A node. In a block it may be a block collection, and as the key or value of a block mapping a
sequence without indentation. -/
def node (inBlock indentless : Bool) : Parse Event := do
  let t ← peek
  match t.kind with
  | .aliasOf name =>
    skip
    complete
    return ⟨.aliasOf name, t.start, t.stop⟩
  | _ =>
    let w ← written
    contentAfter inBlock indentless w (← properties w)

/-- The empty scalar where a node is missing. -/
def noNode (place : Mark) (e : Expect) : Parse Event := do
  next e
  return .missing place

end Parse

end BootConfig.Yaml
