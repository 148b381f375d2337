/-!
# Laying out documents

A document is text with places where a line may end. It is laid out within a width by deciding,
for each group, whether the group fits on the rest of the line: a group that fits is written flat,
and any other is written broken, its inner groups deciding for themselves.

Columns count bytes of UTF-8. Whether a group fits is asked of the group and of what follows it,
up to the first place where the text that follows may end the line.
-/

namespace Scannerless

/-- Text with optional line ends. -/
inductive Doc where
  /-- Nothing. -/
  | nil
  /-- A text, written as it is. -/
  | text (s : String)
  /-- A line end, followed by the indentation. -/
  | hardline
  /-- One document after another. -/
  | append (first second : Doc)
  /-- The first document in broken layout, the second in flat layout. -/
  | flatAlt (broken flat : Doc)
  /-- A document that is laid out flat if it fits. -/
  | group (body : Doc)
  /-- A document whose line ends indent by so many spaces more. -/
  | nest (indent : Nat) (body : Doc)

namespace Doc

instance : Append Doc where
  append := Doc.append

/-- A line end, or a space in flat layout. -/
def line : Doc := .flatAlt .hardline (.text " ")

/-- A line end, or nothing in flat layout. -/
def lineOrNil : Doc := .flatAlt .hardline .nil

/-- A line end where the following does not fit, otherwise a space. -/
def softline : Doc := .group line

/-- A line end where the following does not fit, otherwise nothing. -/
def softlineOrNil : Doc := .group lineOrNil

/-- The documents one after another. -/
def concat (docs : List Doc) : Doc :=
  docs.foldl .append .nil

/-- The documents with a separator between each two. -/
def intersperse (separator : Doc) : List Doc → Doc
  | [] => .nil
  | first :: rest => rest.foldl (fun done next => done ++ separator ++ next) first

/-- The document in braces. -/
def braces (body : Doc) : Doc :=
  .text "\x7b" ++ body ++ .text "\x7d"

/-! ## Fitting -/

/-- How a part of a document is laid out. -/
inductive Mode where
  | flat
  | broken

/-- Whether the document fits on the line from a column on. `rest` tells of a column whether what
follows the document fits from there. A line end that is certain to be taken makes all before it
fit; one that would spoil flat layout makes nothing fit. -/
def fits (width : Nat) : Doc → Mode → (column : Nat) → (rest : Nat → Bool) → Bool
  | .nil, _, column, rest => rest column
  | .text s, _, column, rest =>
    let after := column + s.utf8ByteSize
    if width < after then false else rest after
  | .hardline, .flat, _, _ => false
  | .hardline, .broken, _, _ => true
  | .append first second, mode, column, rest =>
    first.fits width mode column fun after => second.fits width mode after rest
  | .flatAlt _ flat, .flat, column, rest => flat.fits width .flat column rest
  | .flatAlt broken _, .broken, column, rest => broken.fits width .broken column rest
  | .group body, mode, column, rest => body.fits width mode column rest
  | .nest _ body, mode, column, rest => body.fits width mode column rest

/-! ## Rendering -/

/-- What has been written, and the column it ended at. -/
structure Page where
  written : String
  column : Nat

/-- Writes a text at the end of the page. -/
def Page.put (page : Page) (s : String) : Page :=
  ⟨page.written ++ s, page.column + s.utf8ByteSize⟩

/-- Ends the line and indents the next one. -/
def Page.newline (page : Page) (indent : Nat) : Page :=
  ⟨page.written ++ "\n" ++ String.ofList (List.replicate indent ' '), indent⟩

/-- Writes the document on the page. What follows a document is taken to be broken when asking
whether a group before it fits. -/
def layOut (width : Nat) : Doc → (indent : Nat) → Mode → Page → (rest : Nat → Bool) → Page
  | .nil, _, _, page, _ => page
  | .text s, _, _, page, _ => page.put s
  | .hardline, indent, _, page, _ => page.newline indent
  | .append first second, indent, mode, page, rest =>
    let page := first.layOut width indent mode page fun after =>
      second.fits width .broken after rest
    second.layOut width indent mode page rest
  | .flatAlt _ flat, indent, .flat, page, rest => flat.layOut width indent .flat page rest
  | .flatAlt broken _, indent, .broken, page, rest => broken.layOut width indent .broken page rest
  | .group body, indent, .flat, page, rest => body.layOut width indent .flat page rest
  | .group body, indent, .broken, page, rest =>
    let mode := if body.fits width .flat page.column rest then .flat else .broken
    body.layOut width indent mode page rest
  | .nest more body, indent, mode, page, rest => body.layOut width (indent + more) mode page rest

/-- The document laid out within a width. -/
def render (width : Nat) (doc : Doc) : String :=
  (doc.layOut width 0 .broken ⟨"", 0⟩ fun _ => true).written

end Doc

end Scannerless
