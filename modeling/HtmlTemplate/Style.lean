import HtmlTemplate.Markup.Tag

/-!
# Stylesheets in documents

Stylesheets are put into a document as blocks right after its first `<head>` and again right after its
first `<body>`. A document without a head gets one after `<html>`; one without any anchor gets the
blocks in front.
-/

namespace HtmlTemplate.Style

def block (css : Text) : Text := "\n<style>".toList ++ css ++ "</style>\n".toList

/-- The blocks of stylesheets in order. -/
def blocks (sheets : List Text) : Text := sheets.flatMap block

/-- The number of characters up to the end of the first opening tag with a name, wherever it stands. -/
def anchorEnd? (name : Text) : Text → Option Nat
  | [] => none
  | c :: t =>
    match Tag.read (c :: t) with
    | some (tag, _) =>
      if !tag.closing && tag.named name then some tag.print.length
      else (anchorEnd? name t).map (· + 1)
    | none => (anchorEnd? name t).map (· + 1)

/-- Puts `inserted` after the first `n` characters. -/
def insertAt (n : Nat) (inserted t : Text) : Text := t.take n ++ inserted ++ t.drop n

/-- Where blocks for the head go, and what goes there. -/
def headInsertion? (html blocks : Text) : Option (Nat × Text) :=
  match anchorEnd? "head".toList html with
  | some n => some (n, blocks)
  | none =>
    (anchorEnd? "html".toList html).map fun n =>
      (n, "\n<head>".toList ++ blocks ++ "</head>".toList)

/-- Where blocks for the body go, and what goes there. -/
def bodyInsertion? (html blocks : Text) : Option (Nat × Text) :=
  (anchorEnd? "body".toList html).map fun n => (n, blocks)

/-- Puts stylesheets into a document. Of two insertions the later one is made first; at one place the
block for the body comes to stand first. -/
def embed (html : Text) (sheets : List Text) : Text :=
  if sheets.isEmpty then html
  else
    let blocks := blocks sheets
    match headInsertion? html blocks, bodyInsertion? html blocks with
    | none, none => blocks.dropWhile (· == '\n') ++ html
    | some (n, inserted), none => insertAt n inserted html
    | none, some (n, inserted) => insertAt n inserted html
    | some (atHead, forHead), some (atBody, forBody) =>
      if atHead < atBody then insertAt atHead forHead (insertAt atBody forBody html)
      else insertAt atBody forBody (insertAt atHead forHead html)

end HtmlTemplate.Style
