/-!
# Revision ranges

A range says which commits a changelog covers: those after its base, which is excluded, up to its
tip, which is included.  Both ends are given as texts and may be left out.
-/

namespace Changelog

/-- The tip of a range that names none. -/
def defaultTip : String := "HEAD"

/-- The ends of a range, as they were given. -/
structure Range where
  /-- The revision to start after. -/
  base? : Option String := none
  /-- The revision to stop at. -/
  tip? : Option String := none
  deriving DecidableEq, Repr

namespace Range

/-- The whole history. -/
def full : Range := {}

/-- A range with the ends given.  A range that has a base always has a tip. -/
def ofEnds (base? tip? : Option String) : Range where
  base? := base?
  tip? := tip? <|> base?.map fun _ => defaultTip

/-- The tip of a range. -/
def tip (range : Range) : String := range.tip?.getD defaultTip

/-- The written form of a range. -/
def toString (range : Range) : String :=
  (range.base?.elim "" fun base => base ++ "..") ++ range.tip

@[simp] theorem tip_ofEnds (base? tip? : Option String) :
    (ofEnds base? tip?).tip = tip?.getD defaultTip := by
  cases base? <;> cases tip? <;> rfl

end Range

end Changelog
