import FrontEnd.Tree.Basic

/-!
# Where a function returns

A block returns if a statement of it does, and a conditional returns if both of its
blocks do. A loop may be left or never be entered, so it does not count.
-/

namespace FrontEnd.ControlFlow

mutual

/-- Marks the conditionals in a statement, and tells whether the statement returns. -/
def markStatement : Statement → Statement × Bool
  | .ret token value => (.ret token value, true)
  | .cond c =>
    let (c, returns) := markConditional c
    (.cond c, returns)
  | .loop token condition body => (.loop token condition (markBlock body).1, false)
  | s => (s, false)

/-- Marks a conditional with which of its blocks return, and tells whether both do. -/
def markConditional : Conditional → Conditional × Bool
  | .mk token condition onTrue onFalse _ _ =>
    let (onTrue, first) := markBlock onTrue
    let (onFalse, second) := markBlock onFalse
    (.mk token condition onTrue onFalse first second, first && second)

/-- Marks the conditionals in a block, and tells whether the block returns. -/
def markBlock : List Statement → List Statement × Bool
  | [] => ([], false)
  | s :: rest =>
    let (s, first) := markStatement s
    let (rest, others) := markBlock rest
    (s :: rest, first || others)

end

end FrontEnd.ControlFlow
