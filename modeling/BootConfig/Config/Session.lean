import BootConfig.Config.Convert

/-!
# Sessions

A document and the text written last, on which the steps of a conversion are taken one by one.
-/

namespace BootConfig

structure Session where
  document : Tree
  text : String

namespace Session

inductive Command where
  | load (document : Tree)
  | read (text : String)
  | readBack
  | embed
  | write
  | convert (text : String)
  | convertBack

inductive Answer where
  | document (result : Except Fault Tree)
  | embedded (outcome : Contents.Outcome Tree)
  | text (result : Except Fault String)

def start : Session := ⟨.null, ""⟩

/-- A document that could be read replaces the last one. -/
def keepDocument (s : Session) (result : Except Fault Tree) : Session × Answer :=
  match result with
  | .ok document => ({ s with document }, .document result)
  | .error _ => (s, .document result)

/-- A text that could be made replaces the last one. -/
def keepText (s : Session) (result : Except Fault String) : Session × Answer :=
  match result with
  | .ok text => ({ s with text }, .text result)
  | .error _ => (s, .text result)

def step (s : Session) : Command → Session × Answer
  | .load document => s.keepDocument (.ok document)
  | .read text => s.keepDocument (readDocument text)
  | .readBack => s.keepDocument (readDocument s.text)
  | .embed =>
    let o := Contents.embed s.document
    ({ s with document := o.value }, .embedded o)
  | .write => s.keepText (writeDocument s.document)
  | .convert text => s.keepText (BootConfig.convert text)
  | .convertBack => s.keepText (BootConfig.convert s.text)

/-- The answers to commands given one after the other. -/
def run : Session → List Command → List Answer
  | _, [] => []
  | s, c :: cs =>
    let (s, answer) := s.step c
    answer :: run s cs

end Session

end BootConfig
