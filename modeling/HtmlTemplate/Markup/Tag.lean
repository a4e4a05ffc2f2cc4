import HtmlTemplate.Text.Pattern

/-!
# Tags

Markup is never parsed into a tree. Its text is cut into tags and the characters between them: a tag
runs from `<` and a name to the first `>`, whatever quotes stand in between. Declarations and comments
are therefore no tags, and a tag prints back to the characters it was read from.
-/

namespace HtmlTemplate

/-- One `<name …>` or `</name …>`. -/
structure Tag where
  closing : Bool
  /-- An ASCII letter, then ASCII letters and digits. -/
  name : Text
  /-- All that stands between the name and the final `>`. -/
  body : Text
  deriving Repr, DecidableEq

namespace Tag

/-- The characters of a tag. -/
def print (tag : Tag) : Text :=
  '<' :: ((if tag.closing then ['/'] else []) ++ tag.name ++ tag.body ++ ['>'])

def selfClosing (tag : Tag) : Bool := tag.body.getLast? == some '/'

/-- Whether the tag has this name, up to ASCII case. -/
def named (tag : Tag) (name : Text) : Bool := tag.name.sameUpToCase name

/-- The elements that never have a closing tag. -/
def voidNames : List Text :=
  ["area".toList, "base".toList, "br".toList, "col".toList, "embed".toList, "hr".toList,
   "img".toList, "input".toList, "link".toList, "meta".toList, "param".toList, "source".toList,
   "track".toList, "wbr".toList]

/-- Whether this is the name of a void element, in any case. -/
def isVoidName (name : Text) : Bool := voidNames.contains name.lower

/-- Whether the tag opens an element that needs a closing tag. -/
def opensScope (tag : Tag) : Bool := !tag.closing && !tag.selfClosing && !isVoidName tag.name

/-! ## Reading -/

/-- Reads the rest of a tag from its name on. The name ends at a word boundary. -/
def readFromName (closing : Bool) (t : Text) : Option (Tag × Text) :=
  let name := t.takeWhile Char.isAlphanum
  let afterName := t.dropWhile Char.isAlphanum
  if name.head?.any Char.isAlpha && !afterName.head?.any Text.isWord then
    match afterName.dropWhile (· != '>') with
    | '>' :: rest => some (⟨closing, name, afterName.takeWhile (· != '>')⟩, rest)
    | _ => none
  else none

/-- Reads a tag at the front of a text. -/
def read : Text → Option (Tag × Text)
  | '<' :: '/' :: t => readFromName true t
  | '<' :: t => readFromName false t
  | _ => none

theorem eq_append_of_readFromName {closing : Bool} {t rest : Text} {tag : Tag}
    (h : readFromName closing t = some (tag, rest)) :
    tag.closing = closing ∧ t = tag.name ++ tag.body ++ '>' :: rest := by
  unfold readFromName at h
  dsimp only at h
  split at h
  · split at h
    · next r hr =>
      obtain ⟨rfl, rfl⟩ := Prod.mk.inj (Option.some.inj h)
      refine ⟨rfl, ?_⟩
      rw [List.append_assoc, ← hr, List.takeWhile_append_dropWhile,
        List.takeWhile_append_dropWhile]
    · simp at h
  · simp at h

theorem eq_append_of_read {t rest : Text} {tag : Tag} (h : read t = some (tag, rest)) :
    t = tag.print ++ rest := by
  unfold read at h
  split at h
  · obtain ⟨hc, rfl⟩ := eq_append_of_readFromName h
    simp [print, hc]
  · obtain ⟨hc, rfl⟩ := eq_append_of_readFromName h
    simp [print, hc]
  · simp at h

def pattern : Pattern Tag where
  read := read
  print := print
  eq_append := eq_append_of_read
  print_ne_nil := fun _ => List.cons_ne_nil _ _

end Tag

/-! ## Scanned markup -/

/-- Markup cut into tags and the characters between them. -/
abbrev Markup := List (Piece Tag)

namespace Markup

/-- Cuts a text into markup. -/
def ofText (t : Text) : Markup := Tag.pattern.pieces t

/-- The characters of markup. -/
def text (m : Markup) : Text := m.flatMap (Piece.print Tag.print)

/-- The tags of markup in document order. -/
def tags (m : Markup) : List Tag := m.filterMap Piece.lexeme?

@[simp] theorem text_ofText (t : Text) : (ofText t).text = t := Tag.pattern.print_pieces t

@[simp] theorem text_nil : text [] = [] := rfl

@[simp] theorem text_append (m n : Markup) : text (m ++ n) = m.text ++ n.text := by
  simp [text]

@[simp] theorem text_char (c : Char) (m : Markup) : text (.char c :: m) = c :: text m := rfl

@[simp] theorem text_tag (tag : Tag) (m : Markup) :
    text (.lexeme tag :: m) = tag.print ++ text m := rfl

/-- A tag with the byte offsets of its first character and of the character after it. -/
structure Token where
  tag : Tag
  start : Nat
  stop : Nat
  deriving Repr, DecidableEq

/-- The tags of markup that begins at byte `start`, with their offsets. -/
def locate (start : Nat) : Markup → List Token
  | [] => []
  | .char c :: m => locate (start + c.utf8Size) m
  | .lexeme tag :: m =>
    let stop := start + Text.byteLength tag.print
    ⟨tag, start, stop⟩ :: locate stop m

/-- The tags found by scanning `t` from byte `start` on, with their offsets in `t`. -/
def tokensFrom (t : Text) (start : Nat) : List Token :=
  locate start (ofText (t.drop (t.charsInBytes start)))

end Markup
end HtmlTemplate
