import SmallKV.Utils.Codec

/-!
# Db/Status — the status codes of `db/status.h`
-/

namespace SmallKV

/-- `DBStatus`, one constructor for each constant of `Status`. -/
inductive DBStatus
  | success
  | invalidArgs
  | execFailed
  | notImpl
  | notFound
  | corruption
  deriving DecidableEq, Repr

namespace DBStatus

/-- The field `code`, which `operator==` compares. -/
def code : DBStatus → ℕ
  | success => 1
  | invalidArgs => 2
  | execFailed => 3
  | notImpl => 4
  | notFound => 5
  | corruption => 6

/-- The field `err_msg`. -/
def errMsg : DBStatus → Bytes
  | success => ascii "ExecStatus."
  | invalidArgs => ascii "Invalid args."
  | execFailed => ascii "Exec failed."
  | notImpl => ascii "Not implemented."
  | notFound => ascii "Key not found."
  | corruption => ascii "Data corruption."

/-- **Comparing codes tells the statuses apart**, so equality here is `operator==`. -/
theorem code_injective : Function.Injective code := by
  intro s t h
  cases s <;> cases t <;> first | rfl | exact absurd h (by decide)

end DBStatus

end SmallKV
