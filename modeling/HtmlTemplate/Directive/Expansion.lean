import HtmlTemplate.Directive.Reference
import HtmlTemplate.Scope

/-!
# Expansion of loops

Loops are expanded from the left, one per round. A round binds each item of the array to a new name
and puts in the element's place one copy per item, its directive stripped and its references to the
item turned into references to the binding. Inner loops become outermost loops of later rounds.

Bindings made before an error stay in the scope, so every step returns the scope beside its outcome.
-/

namespace HtmlTemplate.Directive

/-- One copy of a fragment per item, each item bound to a new name. -/
def copies (item fragment : Text) : List Value → Scope → Except Error Text × Scope
  | [], s => (.ok [], s)
  | value :: values, s =>
    let (name, s) := s.bind value
    match Reference.retarget item name fragment with
    | .error e => (.error e, s)
    | .ok copy =>
      match copies item fragment values s with
      | (.error e, s) => (.error e, s)
      | (.ok rest, s) => (.ok (copy ++ rest), s)

/-- The text after one round at a loop directive, whose tag stands between `front` and `rest`. -/
def expandAt (front : Markup) (d : Directive) (rest : Markup) (s : Scope) :
    Except Error Text × Scope :=
  match LoopExpr.parse? d.value with
  | none => (.error (.loopExpression d.value), s)
  | some expr =>
    match Markup.cutSpan d.tag rest with
    | none => (.error (.unterminated .loop expr.text d.tag.name), s)
    | some (inside, after) =>
      match s.lookup? expr.source with
      | some (.array items) =>
        match copies expr.item (d.stripped ++ inside.text) items s with
        | (.error e, s) => (.error e, s)
        | (.ok expanded, s) => (.ok (front.text ++ expanded ++ after.text), s)
      | other => (.error (.loopSource expr.item expr.source (Kind.of other)), s)

/-- At most `rounds` rounds of expansion, until no loop is left. -/
def expandRounds : (rounds : Nat) → Text → Scope → Except Error Text × Scope
  | 0, _, s => (.error .unsettledLoops, s)
  | rounds + 1, t, s =>
    match find? .loop (Markup.ofText t) with
    | none => (.ok t, s)
    | some (front, d, rest) =>
      match expandAt front d rest s with
      | (.error e, s) => (.error e, s)
      | (.ok t, s) => expandRounds rounds t s

/-- A number of rounds that suffices wherever spans nest: an element with `k` directives over arrays of
at most `w` items expands in fewer than `(w + 2) ^ k` rounds. -/
def roundBound (t : Text) (s : Scope) : Nat :=
  Nat.pow ((s.bindings.map fun binding => binding.2.widest).foldl max s.data.widest + 2) t.length

/-- Expands all loops of a text, adding bindings to the scope. -/
def expandIn (t : Text) (s : Scope) : Except Error Text × Scope :=
  expandRounds (roundBound t s) t s

/-- Expands all loops of a text over data. Names in the text that look synthetic are never bound. -/
def expand (t : Text) (data : Value) : Except Error Text × Scope :=
  expandIn t ((Scope.ofData data).reserve t)

end HtmlTemplate.Directive
