import CueCheck.Scalar.Rounding

/-!
# What keeps a level from being decoded
-/

namespace CueCheck

/-- Why a level text decodes to no level. -/
inductive LevelError where
  /-- The text is no object with a list of events. -/
  | noEvents
  /-- The rows are set, but nothing that has entries. -/
  | rowsWithoutEntries
  /-- An array or object stands where a plain value names a row, a phrase or a voice. -/
  | compoundName
  /-- A count is no integer. -/
  | notIntegral (why : NotIntegral)
deriving DecidableEq, Repr

/-- The words for it. -/
def LevelError.message : LevelError → String
  | .noEvents => "Level text has no readable 'events' list"
  | .rowsWithoutEntries => "The rows of the level have no entries"
  | .compoundName => "An array or object cannot name a row, a phrase or a voice"
  | .notIntegral why => why.message

end CueCheck
