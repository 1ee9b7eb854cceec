import Rss.Library.Sql

/-! # The execution fence

The storage identity and the epoch a tenant's transactions are bound to
(`0007_add_message_dr.sql`). A transaction that was admitted holds both rows in share mode
until it ends, so neither changes under it. -/

namespace Rss.Messaging

/-- Physical restore unit and its lineage. -/
structure Storage where
  target : BitVec 128
  lineage : BitVec 128
  deriving DecidableEq, Repr

/-- What a runtime is bound to for one tenant. -/
structure Binding where
  storage : Storage
  epoch : ℤ
  deriving DecidableEq, Repr

/-- The row of `storage_lineage` and the tenant's row of `tenant_epoch`. -/
structure Fence where
  storage : Option Storage
  epoch : Option ℤ
  deriving DecidableEq, Repr

/-- `check_execution`. -/
def Fence.checkExecution (f : Fence) (b : Binding) : Bool :=
  f.storage = some b.storage && f.epoch = some b.epoch

end Rss.Messaging
