import UnitE.Lib.ByteCodec
import UnitE.Lib.TreeMap
import UnitE.Spec.Snapshot

/-! The store a snapshot is written to (`snapshot::Indexer`) and read from
(`snapshot::Iterator`). Subsets are appended in their stream format to data files
`utxo<id>.dat` of `step * steps_per_file` subsets each; per file, `index.dat` records the
offset of the end of every group of `step` subsets, and `meta.dat` the header with the total.
A reader seeks to the end of the group before the subset it wants and reads forward. The
indexer and the iterator never look inside a subset, so the record type is generic, with its
stream format a `ByteCodec`; `meta.dat` and `index.dat` hold the values written to them, whose
serialization is not modelled, and a failing `fopen` is not modelled either. -/

namespace UnitE.Snapshot

/-- `Indexer::IdxMap`: per group of `step` subsets of a data file, the bytes from the start of
the file to the end of the group. -/
abbrev IdxMap := Std.TreeMap UInt32 UInt32 compare

/-- The indexes of the data files by file id: `m_dir_idx`, and `index.dat`. -/
abbrev DirIdx := Std.TreeMap UInt32 IdxMap compare

/-- `snapshot::Meta`, what `meta.dat` holds. -/
structure Meta where
  snapshot_header : SnapshotHeader
  step : UInt32
  steps_per_file : UInt32
  deriving DecidableEq

/-- The directory of a snapshot: `meta.dat` and `index.dat` as last written, and the data file
of each id, `none` where it does not exist. -/
structure Disk where
  metaDat : Option Meta
  indexDat : Option DirIdx
  utxoDat : UInt32 → Option (List UInt8)

/-- A new directory. -/
def Disk.empty : Disk := ⟨none, none, fun _ => none⟩

structure Indexer where
  m_meta : Meta
  m_stream : List UInt8
  m_dir_idx : DirIdx
  m_file_idx : IdxMap
  m_file_id : UInt32
  m_file_msgs : UInt32
  m_file_bytes : UInt32

namespace Indexer

/-- `Indexer(snapshot_header, step, steps_per_file)`, which asserts that both are positive and
counts no subset yet. -/
def create (snapshot_header : SnapshotHeader) (step steps_per_file : UInt32) : Fallible Indexer := do
  if step = 0 then throw .assertion
  if steps_per_file = 0 then throw .assertion
  pure
    { m_meta := ⟨{ snapshot_header with total_utxo_subsets := 0 }, step, steps_per_file⟩
      m_stream := []
      m_dir_idx := ∅
      m_file_idx := ∅
      m_file_id := 0
      m_file_msgs := 0
      m_file_bytes := 0 }

/-- `Indexer(meta, dir_idx)`, from what `Open` read: the current file is the last one of the
index, its subsets are the total less `size() - 1` full files, and its bytes are the last
offset of its index. -/
def ofMeta (m : Meta) (dir_idx : DirIdx) : Fallible Indexer := do
  if m.step = 0 then throw .assertion
  if m.steps_per_file = 0 then throw .assertion
  let ind : Indexer := ⟨m, [], dir_idx, ∅, 0, 0, 0⟩
  match dir_idx.toList.getLast? with
  | none => pure ind
  | some (file_id, file_idx) =>
    -- `uint64_t` arithmetic, cast to `uint32_t`
    let s := (dir_idx.size - 1) * m.step.toNat * m.steps_per_file.toNat
    pure { ind with
      m_file_id := file_id
      m_file_msgs := UInt32.ofNat m.snapshot_header.total_utxo_subsets - UInt32.ofNat s
      m_file_idx := file_idx
      m_file_bytes := match file_idx.toList.getLast? with
        | none => 0
        | some (_, bytes) => bytes }

/-- `Indexer::Open`: `nullptr` without `meta.dat` or `index.dat`. -/
def Open (disk : Disk) : Fallible (Option Indexer) :=
  match disk.metaDat, disk.indexDat with
  | some m, some dir_idx => some <$> ofMeta m dir_idx
  | _, _ => pure none

variable {α : Type} (codec : ByteCodec α) (ind : Indexer) (disk : Disk)

/-- `Indexer::FlushFile`: the buffered bytes are appended to the current data file, which
`"ab"` creates. -/
def FlushFile : Indexer × Disk :=
  ({ ind with
      m_file_bytes := ind.m_file_bytes + UInt32.ofNat ind.m_stream.length
      m_stream := [] },
    { disk with
      utxoDat := Function.update disk.utxoDat ind.m_file_id
        (some ((disk.utxoDat ind.m_file_id).getD [] ++ ind.m_stream)) })

/-- `Indexer::WriteUTXOSubset`. The file of a subset is its number over the `uint32_t` product
`step * steps_per_file` (a product that wraps to 0 divides by zero in the source, and reads 0
here). Moving on to the next file flushes the current one and files its index. -/
def WriteUTXOSubset (subset : α) : Indexer × Disk :=
  let file_id := UInt32.ofNat (ind.m_meta.snapshot_header.total_utxo_subsets /
    (ind.m_meta.step * ind.m_meta.steps_per_file).toNat)
  let (ind, disk) :=
    if file_id > ind.m_file_id then
      let (ind, disk) := ind.FlushFile disk
      ({ ind with
          m_dir_idx := ind.m_dir_idx.insert ind.m_file_id ind.m_file_idx
          m_stream := []
          m_file_idx := ∅
          m_file_msgs := 0
          m_file_bytes := 0
          m_file_id := file_id }, disk)
    else (ind, disk)
  let m_stream := ind.m_stream ++ codec.ser subset
  let idx := ind.m_file_msgs / ind.m_meta.step
  ({ ind with
      m_stream := m_stream
      m_file_idx := ind.m_file_idx.insert idx (UInt32.ofNat m_stream.length + ind.m_file_bytes)
      m_meta.snapshot_header.total_utxo_subsets := ind.m_meta.snapshot_header.total_utxo_subsets + 1
      m_file_msgs := ind.m_file_msgs + 1 }, disk)

def WriteUTXOSubsets (list : List α) : Indexer × Disk :=
  list.foldl (fun s subset => s.1.WriteUTXOSubset codec s.2 subset) (ind, disk)

/-- `Indexer::FlushIndex`: the current file's index joins the directory's, which is written. -/
def FlushIndex : Indexer × Disk :=
  let ind := if ind.m_file_idx.isEmpty then ind
    else { ind with m_dir_idx := ind.m_dir_idx.insert ind.m_file_id ind.m_file_idx }
  (ind, { disk with indexDat := some ind.m_dir_idx })

def FlushMeta : Disk := { disk with metaDat := some ind.m_meta }

def Flush : Indexer × Disk :=
  let (ind, disk) := if ind.m_stream.isEmpty then (ind, disk) else ind.FlushFile disk
  let (ind, disk) := ind.FlushIndex disk
  (ind, ind.FlushMeta disk)

/-- `Indexer::GetClosestIdx`: the data file of the subset, read from the start of the subset's
group, with the subsets left in the file from there and the number of the group's first
subset. The two out-parameters are written once the group is found, before the file is
opened; `none` is `nullptr`. `fseek` past the end of the file succeeds, and the read after it
fails. -/
def GetClosestIdx (subset_index : Nat) (subset_left_out : UInt32) (subset_read_out : Nat) :
    Option (List UInt8) × UInt32 × Nat :=
  let step := ind.m_meta.step
  let steps_per_file := ind.m_meta.steps_per_file
  let file_id := UInt32.ofNat (subset_index / (step * steps_per_file).toNat)
  match ind.m_dir_idx[file_id]? with
  | none => (none, subset_left_out, subset_read_out)
  | some idx_map =>
    let prev_count := file_id * step * steps_per_file
    -- `static_cast<uint32_t>(subset_index - prev_count)`
    let index := (UInt32.ofNat subset_index - prev_count) / step
    match idx_map[index]? with
    | none => (none, subset_left_out, subset_read_out)
    | some _ =>
      let subset_read_out := (file_id * step * steps_per_file + index * step).toNat
      let subset_left_out :=
        if ind.m_dir_idx.contains (file_id + 1) then step * steps_per_file - index * step
        else UInt32.ofNat ind.m_meta.snapshot_header.total_utxo_subsets - prev_count - index * step
      match disk.utxoDat file_id with
      | none => (none, subset_left_out, subset_read_out)
      | some bytes =>
        -- `idx_map[index - 1]` reads 0 for a missing key
        let offset := if index > 0 then (idx_map.getD (index - 1) 0).toNat else 0
        (some (bytes.drop offset), subset_left_out, subset_read_out)

end Indexer

/-- `snapshot::Iterator` over a store on `disk`: the open data file as the bytes after its
cursor, `none` for no file. -/
structure Iterator (α : Type) where
  m_indexer : Indexer
  m_file : Option (List UInt8)
  m_read_total : Nat
  m_subset_left : UInt32
  m_utxo_subset : α

namespace Iterator

variable {α : Type} (codec : ByteCodec α) (disk : Disk)

/-- `GetSnapshotHeader().total_utxo_subsets`. -/
def total (it : Iterator α) : Nat := it.m_indexer.m_meta.snapshot_header.total_utxo_subsets

def Valid (it : Iterator α) : Bool := it.m_file.isSome && decide (it.m_read_total ≤ it.total)

def GetUTXOSubset (it : Iterator α) : α := it.m_utxo_subset

/-- The read at the end of `Next`, through a `CAutoFile` on the open file, which throws on a
null file and on bytes that do not start with a subset. -/
def readSubset (it : Iterator α) : Option (Iterator α) :=
  match it.m_file with
  | none => none
  | some bytes =>
    match codec.deser bytes with
    | none => none
    | some (subset, rest) =>
      some { it with
        m_file := some rest
        m_utxo_subset := subset
        m_read_total := it.m_read_total + 1
        m_subset_left := it.m_subset_left - 1 }

/-- `Iterator::Next`: one past the last subset marks the end; with no subset left in the open
file, the file of the next one is opened. `none` is an exception of the stream. -/
def Next (it : Iterator α) : Option (Iterator α) :=
  if it.m_read_total > it.total then some it
  else if it.m_read_total = it.total then some { it with m_read_total := it.m_read_total + 1 }
  else if it.m_subset_left = 0 then
    let (file, left, read) :=
      it.m_indexer.GetClosestIdx disk it.m_read_total it.m_subset_left it.m_read_total
    let it := { it with m_file := file, m_subset_left := left, m_read_total := read }
    if file.isNone then some it else readSubset codec it
  else readSubset codec it

/-- `Iterator(indexer)`, which reads the first subset when there is one. -/
def create [Inhabited α] (indexer : Indexer) : Option (Iterator α) :=
  let it : Iterator α := ⟨indexer, none, 0, 0, default⟩
  if it.total > 0 then Next codec disk it else some it

/-- The `while` loop of `MoveCursorTo`, for at most `fuel` passes: it reads until the subset at
`subset_index` is the current one, and fails once the iterator is not valid. Each pass reads
the next subset, so `subset_index + 1` passes end it on every state of a written snapshot;
`none` is also the loop not having ended by then. -/
def moveLoop (subset_index : Nat) : Nat → Iterator α → Option (Bool × Iterator α)
  | 0, _ => none
  | fuel + 1, it =>
    if it.m_read_total < subset_index + 1 then
      if !it.Valid then some (false, it)
      else (Next codec disk it).bind (moveLoop subset_index fuel)
    else some (true, it)

/-- `Iterator::MoveCursorTo`. Right after construction the first subset is current already. -/
def MoveCursorTo (it : Iterator α) (subset_index : Nat) : Option (Bool × Iterator α) :=
  if it.total ≤ subset_index then some (false, it)
  else if it.m_read_total = 1 ∧ subset_index = 0 then some (true, it)
  else
    let (file, left, read) :=
      it.m_indexer.GetClosestIdx disk subset_index it.m_subset_left it.m_read_total
    let it := { it with m_file := file, m_subset_left := left, m_read_total := read }
    if file.isNone then some (false, it)
    else (Next codec disk it).bind (moveLoop codec disk subset_index (subset_index + 1))

/-- The loop of `GetUTXOSubsets` with `count` subsets still wanted: while the iterator is
valid, the current subset is taken and the next one read. -/
def collect : Nat → Iterator α → Option (List α × Iterator α)
  | 0, it => some ([], it)
  | count + 1, it =>
    if it.Valid then
      (Next codec disk it).bind fun it' =>
        (collect count it').map fun r => (it.GetUTXOSubset :: r.1, r.2)
    else some ([], it)

/-- `Iterator::GetUTXOSubsets`: `subsets_out` is left as it is when the cursor cannot move. -/
def GetUTXOSubsets (it : Iterator α) (subset_index : Nat) (count : UInt16) (subsets_out : List α) :
    Option (Bool × List α × Iterator α) :=
  (MoveCursorTo codec disk it subset_index).bind fun r =>
    if r.1 then (collect codec disk count.toNat r.2).map fun s => (true, s.1, s.2)
    else some (false, subsets_out, r.2)

end Iterator

/-- What a writer does with an indexer: write a subset, flush, or drop the indexer and
`Open` the directory again. -/
inductive IndexerOp (α : Type)
  | write (subset : α)
  | flush
  | reopen

namespace IndexerOp

variable {α : Type} (codec : ByteCodec α)

/-- One operation; a reopen that finds no indexer, or whose indexer asserts, ends the run. -/
def run : IndexerOp α → Indexer × Disk → Option (Indexer × Disk)
  | .write subset, (ind, disk) => some (ind.WriteUTXOSubset codec disk subset)
  | .flush, (ind, disk) => some (ind.Flush disk)
  | .reopen, (_, disk) =>
    match Indexer.Open disk with
    | .ok (some ind) => some (ind, disk)
    | _ => none

/-- The subsets a list of operations writes, in order. -/
def writes : List (IndexerOp α) → List α
  | [] => []
  | .write subset :: ops => subset :: writes ops
  | _ :: ops => writes ops

/-- Every reopen comes after a flush with no write since, given whether the directory is
flushed at the start. -/
def ReopensFlushed : Bool → List (IndexerOp α) → Bool
  | _, [] => true
  | _, .write _ :: ops => ReopensFlushed false ops
  | _, .flush :: ops => ReopensFlushed true ops
  | flushed, .reopen :: ops => flushed && ReopensFlushed flushed ops

end IndexerOp

/-- A run of operations on an indexer. -/
def runIndexer {α : Type} (codec : ByteCodec α) :
    List (IndexerOp α) → Indexer × Disk → Option (Indexer × Disk)
  | [], s => some s
  | op :: ops, s => (op.run codec s).bind (runIndexer codec ops)

end UnitE.Snapshot
