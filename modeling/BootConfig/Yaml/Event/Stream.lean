import BootConfig.Yaml.Event.Collection
import BootConfig.Yaml.Token.Stream

/-!
# From tokens to events

Documents with their directives, and the events of a whole text.
-/

namespace BootConfig.Yaml

namespace Parse

/-! ## Documents -/

/-- The directives in front of a document: the handles they define and the tokens behind them. -/
def directives : List Token → Bool → Handles → Except (Option Problem) (Handles × List Token)
  | [], _, _ => .error none
  | t :: ts, versioned, handles =>
    match t.kind with
    | .version major minor =>
      if versioned then .error (some (.malformed .duplicateVersion t.start none))
      else if major ≠ 1 || (minor ≠ 1 && minor ≠ 2) then
        .error (some (.malformed .incompatibleVersion t.start none))
      else directives ts true handles
    | .handle name replacement =>
      if handles.any (·.1 = name) then .error (some (.malformed .duplicateHandle t.start none))
      else directives ts versioned (handles ++ [(name, replacement)])
    | _ => .ok (handles, t :: ts)

/-- Reads the directives of a document and sets its handles. -/
def setHandles : Parse Unit := do
  let g ← get
  let (handles, tokens) ← directives g.tokens false []
  set { g with tokens, handles := handles ++ defaultHandles }

def isDirective : Token.Kind → Bool
  | .version .. | .handle .. => true
  | _ => false

/-- Takes end marks of documents. -/
def skipDocumentEnds : Parse Unit := modify fun g =>
  { g with tokens := g.tokens.dropWhile (·.kind = .documentEnd) }

/-- The start of a document or the end of the stream. The first document needs no start mark. -/
def document (bare : Bool) : Parse Event := do
  if !bare then skipDocumentEnds
  let t ← peek
  if t.kind = .streamEnd then
    skip
    next .nothing
    return ⟨.streamEnd, t.start, t.stop⟩
  else if bare && t.kind ≠ .documentStart && !isDirective t.kind then
    setHandles
    later .documentEnd
    next .blockNode
    return ⟨.documentStart, t.start, t.start⟩
  else
    setHandles
    let mark ← peek
    if mark.kind ≠ .documentStart then fail .missingDocumentStart mark.start none
    later .documentEnd
    next .content
    skip
    return ⟨.documentStart, t.start, mark.stop⟩

/-- The node of a document behind its start mark. -/
def content : Parse Event := do
  let t ← peek
  if isDirective t.kind || t.kind = .documentStart || t.kind = .documentEnd ||
      t.kind = .streamEnd then
    complete
    return .missing t.start
  else node true false

def documentEnd : Parse Event := do
  let t ← peek
  next (.document false)
  modify ({ · with handles := [] })
  if t.kind = .documentEnd then
    skip
    return ⟨.documentEnd, t.start, t.stop⟩
  else return ⟨.documentEnd, t.start, t.start⟩

/-! ## The machine -/

def stream : Parse Event := do
  let t ← peek
  skip
  next (.document true)
  return ⟨.streamStart, t.start, t.start⟩

/-- The next event; none is left after the end of the stream. -/
def step : Parse (Option Event) := do
  match (← get).expect with
  | .stream => some <$> stream
  | .document bare => some <$> document bare
  | .content => some <$> content
  | .documentEnd => some <$> documentEnd
  | .blockNode => some <$> node true false
  | .blockEntry began => some <$> blockEntry began
  | .indentlessEntry => some <$> indentlessEntry
  | .blockKey began => some <$> blockKey began
  | .blockValue began => some <$> blockValue began
  | .flowEntry first began => some <$> flowEntry first began
  | .pairKey began => some <$> pairKey began
  | .pairValue began => some <$> pairValue began
  | .pairEnd began => some <$> pairEnd began
  | .flowKey first began => some <$> flowKey first began
  | .flowValue began => some <$> flowValue began
  | .flowNoValue began => some <$> flowNoValue began
  | .nothing => return none

end Parse

/-- The events of a text up to the first problem. -/
structure Events where
  list : List Event
  problem : Option Problem

namespace Grammar

def ofTokens (tokens : List Token) : Grammar :=
  { tokens, expect := .stream, stack := [], handles := [] }

/-- Steps up to the end of the stream or the first problem, with the events found in reverse. -/
def run : Nat → Grammar → List Event → List Event × Option (Option Problem)
  | 0, _, events => (events, none)
  | fuel + 1, g, events =>
    match Parse.step g with
    | .error problem => (events, some problem)
    | .ok (none, _) => (events, none)
    | .ok (some e, g) => run fuel g (e :: events)

end Grammar

/-- Where the tokens run out, the problem is the one that ended them. -/
def Events.ofTokens (t : Tokens) : Events :=
  match Grammar.run (4 * t.list.length + 8) (.ofTokens t.list) [] with
  | (events, none) => ⟨events.reverse, none⟩
  | (events, some (some problem)) => ⟨events.reverse, some problem⟩
  | (events, some none) => ⟨events.reverse, t.problem⟩

end BootConfig.Yaml
