import SimpleFlow.FlowHandler

/-!
# The file reader

`FileReader` remembers a position and the inode number it believes the file to
have. It keeps no descriptor: every `read` opens the path again. The result of
each system call is an argument here, so that the callers decide what the file
system does.
-/

namespace SimpleFlow

/-- `_offset` and `_file_ino`; the path never changes and `is_tail` is not
stored by the constructor. -/
structure FileReader where
  offset : Int
  fileIno : ℕ
  deriving DecidableEq, Repr

/-- What `read` reports: its return value and its out-parameters. -/
structure ReadResult where
  ret : Int
  reader : FileReader
  buffer : Bytes
  readSize : Int

/-- The bytes that `fs.seekg(offset, fs.beg); fs.read(buffer, size)` extracts
from a file. A negative offset makes `seekg` fail, and then nothing is read. -/
def extract (content : Bytes) (offset : Int) (size : ℕ) : Bytes :=
  if offset < 0 then [] else (content.drop offset.toNat).take size

namespace FileReader

/-- `FileReader::FileReader`: what the opened file holds (`none` when the open
fails, after which `tellg` answers -1) and the inode that `stat` reports. -/
def new (isTail : Bool) (opened : Option Bytes) (st : Option ℕ) : FileReader where
  offset :=
    if isTail then
      match opened with
      | none => -1
      | some content => content.length
    else 0
  fileIno :=
    match st with
    | none => 0
    | some ino => ino

/-- `FileReader::read`. A failed open leaves `read_size` and the buffer alone. -/
def read (r : FileReader) (opened : Option Bytes) (buffer : Bytes) (size : ℕ) (readSize : Int) :
    ReadResult :=
  match opened with
  | none => ⟨-1, r, buffer, readSize⟩
  | some content =>
      let got := extract content r.offset size
      ⟨if (got.length : Int) = 0 then 1 else 0, { r with offset := r.offset + got.length },
        got ++ buffer.drop got.length, got.length⟩

/-- `FileReader::check_and_reset` -/
def checkAndReset (r : FileReader) (st : Option ℕ) : Int × FileReader :=
  match st with
  | none => (-1, r)
  | some ino => if ino = r.fileIno then (0, r) else (0, ⟨0, ino⟩)

end FileReader

theorem extract_length_le (content : Bytes) (offset : Int) (size : ℕ) :
    (extract content offset size).length ≤ size := by
  unfold extract
  split
  · exact Nat.zero_le _
  · exact List.length_take_le _ _

theorem offset_nonneg_of_extract {content : Bytes} {offset : Int} {size : ℕ}
    (h : extract content offset size ≠ []) : 0 ≤ offset := by
  by_contra hneg
  apply h
  rw [extract, if_pos (by omega)]

theorem extract_natCast (content : Bytes) (k size : ℕ) :
    extract content k size = (content.drop k).take size := by
  have hk : ¬(k : Int) < 0 := by omega
  simp only [extract, hk, if_false, Int.toNat_natCast]

theorem extract_eq_nil {content : Bytes} {k : ℕ} (h : content.length ≤ k) (size : ℕ) :
    extract content k size = [] := by
  rw [extract_natCast, List.drop_eq_nil_of_le h, List.take_nil]

theorem take_append_extract (content : Bytes) (k size : ℕ) :
    content.take k ++ extract content k size =
      content.take (k + (extract content k size).length) := by
  rw [extract_natCast, List.length_take, List.length_drop, List.take_add]
  congr 1
  rcases Nat.le_total size (content.length - k) with h | h
  · rw [Nat.min_eq_left h]
  · rw [Nat.min_eq_right h, List.take_of_length_le (by simpa using h),
      List.take_of_length_le (by simp)]

theorem offset_add_extract_le {content : Bytes} {k : ℕ} (h : k ≤ content.length) (size : ℕ) :
    k + (extract content k size).length ≤ content.length := by
  rw [extract_natCast, List.length_take, List.length_drop]
  omega

end SimpleFlow
