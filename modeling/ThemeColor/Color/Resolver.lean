import ThemeColor.Color.Resolve

/-!
# Resolvers

A resolver answers one request after the other. It resolves colors and keeps the warnings of all of
them until they are asked for. A color that cannot be resolved is an answer like any other.
-/

namespace ThemeColor

/-- What a resolver can be asked for. -/
inductive Request (α : Type) where
  /-- The canonical color of an expression. -/
  | resolve (color : Color α)
  /-- The warnings that were recorded since the last time. -/
  | takeWarnings
  deriving Repr

/-- What a resolver answers. -/
inductive Answer (α : Type) where
  /-- The canonical color, or why there is none. -/
  | resolved (outcome : Except ColorError (Canonical α))
  /-- The warnings. -/
  | warnings (taken : List Warning)

namespace Palette

variable {α : Type} [Scalar α]

/-- Hands over the warnings that were recorded, and forgets them. -/
def takeWarnings : StateM (List Warning) (List Warning) := modifyGet fun recorded => (recorded, [])

/-- The answer to a request. -/
def answer (p : Palette α) : Request α → StateM (List Warning) (Answer α)
  | .resolve color => .resolved <$> (p.resolve color).run
  | .takeWarnings => .warnings <$> takeWarnings

/-- The answers to several requests, in order. -/
def answerAll (p : Palette α) (requests : List (Request α)) :
    StateM (List Warning) (List (Answer α)) :=
  requests.mapM p.answer

end Palette

end ThemeColor
