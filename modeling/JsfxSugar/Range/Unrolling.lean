import JsfxSugar.Range.Mark

/-! Unrolling range blocks. A single scan keeps the stack of open blocks; an inner block is unrolled
before its text becomes part of the body around it. -/

namespace JsfxSugar.Range

/-- An open block: its opening as written and as checked, the body so far (its last character
first), and whether the body holds a mark that was not unrolled. Such a block stays as it is. -/
structure OpenBlock where
  opening : Opening
  header : Header
  body : Text := []
  kept : Bool := false

/-- The text written so far (its last character first) and the open blocks, innermost first. -/
structure Scan where
  written : Text := []
  blocks : List OpenBlock := []

namespace Scan

/-- Appends text to the innermost open body, or to what is written when no block is open. -/
def put (scan : Scan) (text : Text) : Scan :=
  match scan.blocks with
  | [] => { scan with written := text.reverseAux scan.written }
  | block :: outer =>
    { scan with blocks := { block with body := text.reverseAux block.body } :: outer }

/-- Appends text that holds a mark which is not unrolled: the block around it stays as well. -/
def keep (scan : Scan) (text : Text) : Scan :=
  match scan.blocks with
  | [] => scan.put text
  | block :: outer => { scan with blocks := { block with kept := true } :: outer }.put text

/-- Opens a block. -/
def enter (scan : Scan) (opening : Opening) : Except Fault Scan := do
  let header ← opening.header
  return { scan with blocks := { opening, header } :: scan.blocks }

/-- Closes the innermost block. A close without a block stands for itself. -/
def leave (scan : Scan) : Except Fault Scan :=
  match scan.blocks with
  | [] => .ok (scan.put Mark.close.source)
  | block :: outer =>
    let scan := { scan with blocks := outer }
    let body := block.body.reverse
    if block.kept then .ok (scan.keep (block.opening.source ++ body ++ Mark.close.source))
    else
      let text := block.header.unroll body
      if marked text then .error (.reopening block.header.name) else .ok (scan.put text)

def step (scan : Scan) : Segment Mark → Except Fault Scan
  | .plain c => .ok (scan.put [c])
  | .hit .close => scan.leave
  | .hit (.opening opening) => scan.enter opening
  | .hit .stray => .ok (scan.keep Mark.stray.source)

/-- All the text, where the blocks still open stand for themselves. -/
def text (scan : Scan) : Text :=
  scan.written.reverse ++
    scan.blocks.reverse.flatMap fun block => block.opening.source ++ block.body.reverse

end Scan

/-- The text with its range blocks unrolled. -/
def unroll (t : Text) : Except Fault Text :=
  ((Mark.pattern.segments t).foldlM Scan.step {}).map Scan.text

end JsfxSugar.Range
