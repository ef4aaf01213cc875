/-!
# Record states

The life of a record as a commit sees it.
-/

namespace UnitOfWork

/-- Where a record stands between two commits. -/
inductive RecordState where
  /-- Never written. -/
  | new
  /-- Written before, with changes that are not. -/
  | changed
  /-- Written, without changes. -/
  | unchanged
  /-- To be removed. -/
  | deleted
  deriving DecidableEq, Repr

def RecordState.name : RecordState → String
  | new => "New"
  | changed => "Changed"
  | unchanged => "Unchanged"
  | deleted => "Deleted"

end UnitOfWork
