import Mathlib
import Xv6.Param

/-!
# System call arguments and the stores behind them

`argint` and `argptr` of `syscall.c` and the calls that store through a pointer they
have checked: `read`, `fstat` and `pipe`. Sizes and addresses are 32-bit words; the
byte count of `read` is an `int` that is passed on as an `int` to pipes and devices
and as a `uint` to `readi`.
-/

namespace Xv6.User

abbrev Addr := BitVec 32
abbrev Byte := BitVec 8

def KERNBASE : Addr := 0x80000000

/-- Bytes of a disk block. -/
def BSIZE : BitVec 32 := 512

/-- The type of an inode, `T_DIR`, `T_FILE` or `T_DEV`. -/
inductive FileType where
  | dir
  | file
  | dev
  deriving DecidableEq, Repr

/-- The parts of a `struct inode` that the calls read; `content` is what the blocks of the inode hold. -/
structure Inode where
  dev : BitVec 32
  inum : BitVec 32
  type : FileType
  major : BitVec 16
  nlink : BitVec 16
  size : BitVec 32
  content : BitVec 32 → Byte

/-- `struct file`: of type `FD_NONE`, of type `FD_PIPE` with the bytes in the pipe when `piperead` copies, or of
type `FD_INODE`. -/
inductive Object where
  | none
  | pipe (unread : List Byte)
  | inode (ip : Inode) (off : BitVec 32)

structure File where
  readable : Bool
  object : Object

/-- A process in a system call: its size, the saved stack pointer, its memory and its open files. -/
structure Proc where
  sz : Addr
  esp : Addr
  mem : Addr → Byte
  ofile : Nat → Option File

/-- A byte stored in user memory. -/
abbrev Store := Addr × Byte

section
variable (p : Proc)

/-! ## Fetching arguments -/

/-- The little-endian word at an address. -/
def Proc.word (addr : Addr) : BitVec 32 :=
  p.mem (addr + 3) ++ p.mem (addr + 2) ++ p.mem (addr + 1) ++ p.mem addr

/-- Fetch the int at `addr` from the current process. -/
def fetchint (addr : Addr) : Option (BitVec 32) :=
  if addr ≥ p.sz ∨ addr + 4 > p.sz then none else some (p.word addr)

/-- Fetch the nth 32-bit system call argument. -/
def argint (n : Nat) : Option (BitVec 32) := fetchint p (p.esp + 4 + 4 * BitVec.ofNat 32 n)

/-- Fetch the nth system call argument as a pointer to a block of memory of `size` bytes. -/
def argptr (n : Nat) (size : BitVec 32) : Option Addr :=
  match argint p n with
  | none => none
  | some i => if i ≥ p.sz ∨ i + size > p.sz then none else some i

/-- Fetch the nth system call argument as a file descriptor. -/
def argfd (n : Nat) : Option File :=
  match argint p n with
  | none => none
  | some fd => if fd.toInt < 0 ∨ fd.toInt ≥ NOFILE then none else p.ofile fd.toNat

end

/-! ## Reading -/

/-- `memmove(dst, ., m)` from the bytes `src`. -/
def memmove (dst : Addr) (src : BitVec 32 → Byte) (m : Nat) : List Store :=
  (List.range m).map fun k => (dst + BitVec.ofNat 32 k, src (BitVec.ofNat 32 k))

/-- The macro `min` of `fs.c`. -/
def min (a b : BitVec 32) : BitVec 32 := if a < b then a else b

/-- The loop of `readi`. Every round copies at least one byte. -/
def readiLoop (content : BitVec 32 → Byte) (n : BitVec 32) : Nat → (tot off : BitVec 32) → Addr → List Store
  | 0, _, _, _ => []
  | rounds + 1, tot, off, dst =>
    if tot < n then
      let m := min (n - tot) (BSIZE - off % BSIZE)
      memmove dst (fun k => content (off + k)) m.toNat ++ readiLoop content n rounds (tot + m) (off + m) (dst + m)
    else []

/-- The loop of `piperead`: `unread` are the bytes left in the pipe. -/
def pipereadLoop (addr : Addr) (n : Int) : Nat → List Byte → List Store
  | _, [] => []
  | i, c :: unread => if (i : Int) < n then (addr + BitVec.ofNat 32 i, c) :: pipereadLoop addr n (i + 1) unread else []

def ctrlD : Byte := 4
def newline : Byte := 10

/-- The loop of `consoleread`; when the input ends the process waits until it is killed. -/
def consolereadLoop : Addr → Int → List Byte → List Store
  | _, _, [] => []
  | dst, n, c :: input =>
    if n > 0 then
      if c = ctrlD then []
      else (dst, c) :: if c = newline then [] else consolereadLoop (dst + 1) (n - 1) input
    else []

/-- `major` names a device with a `read` function: the console. -/
def devHasRead (major : BitVec 16) : Bool := major = 1

/-- Read data from inode: the bytes stored at `dst`. -/
def readi (ip : Inode) (input : List Byte) (dst : Addr) (off n : BitVec 32) : List Store :=
  if ip.type = .dev then
    if devHasRead ip.major then consolereadLoop dst n.toInt input else []
  else if off > ip.size ∨ off + n < off then []
  else
    let n := if off + n > ip.size then ip.size - off else n
    readiLoop ip.content n n.toNat 0 off dst

/-- Read from file `f`. -/
def fileread (f : File) (input : List Byte) (addr : Addr) (n : BitVec 32) : List Store :=
  if f.readable then
    match f.object with
    | .none => []
    | .pipe unread => pipereadLoop addr n.toInt 0 unread
    | .inode ip off => readi ip input addr off n
  else []

/-- What `sys_read` stores; `input` is what the console delivers. -/
def sysRead (p : Proc) (input : List Byte) : List Store :=
  match argfd p 0, argint p 2 with
  | some f, some n =>
    match argptr p 1 n with
    | some dst => fileread f input dst n
    | none => []
  | _, _ => []

/-! ## The other calls -/

/-- The store of `bytes` bytes of a field. -/
def storeField (dst : Addr) {w : Nat} (bytes : Nat) (v : BitVec w) : List Store :=
  memmove dst (fun k => (v >>> (8 * k.toNat)).setWidth 8) bytes

/-- `sizeof(struct stat)`: the shorts `type` and `nlink` are followed by two bytes of padding. -/
def STAT : BitVec 32 := 20

def typeCode : FileType → BitVec 16
  | .dir => 1
  | .file => 2
  | .dev => 3

/-- Copy stat information from inode. -/
def stati (ip : Inode) (st : Addr) : List Store :=
  storeField (st + 4) 4 ip.dev ++ storeField (st + 8) 4 ip.inum ++ storeField st 2 (typeCode ip.type) ++
    storeField (st + 12) 2 ip.nlink ++ storeField (st + 16) 4 ip.size

def sysFstat (p : Proc) : List Store :=
  match argfd p 0, argptr p 1 STAT with
  | some ⟨_, .inode ip _⟩, some st => stati ip st
  | _, _ => []

/-- `sys_pipe`; `fds` are the descriptors that it allocates, if it can. -/
def sysPipe (p : Proc) (fds : Option (BitVec 32 × BitVec 32)) : List Store :=
  match argptr p 0 8, fds with
  | some fd, some (fd0, fd1) => storeField fd 4 fd0 ++ storeField (fd + 4) 4 fd1
  | _, _ => []

/-! ## Where the bytes go -/

/-- The addresses of `m` bytes from `dst` on. -/
def addresses (dst : Addr) (m : Nat) : List Addr := (List.range m).map fun k => dst + BitVec.ofNat 32 k

theorem memmove_addresses (dst : Addr) (src : BitVec 32 → Byte) (m : Nat) :
    (memmove dst src m).map Prod.fst = addresses dst m := by
  simp [memmove, addresses, Function.comp_def]

theorem addresses_add (dst : Addr) (m k : Nat) :
    addresses dst (m + k) = addresses dst m ++ addresses (dst + BitVec.ofNat 32 m) k := by
  simp [addresses, List.range_add, Function.comp_def, BitVec.ofNat_add, BitVec.add_assoc]

/-- All of `m` bytes lie below `sz` exactly if their end does. -/
theorem addresses_below_iff {dst sz : Addr} (inside : dst < sz) (m : Nat) :
    (∀ a ∈ addresses dst m, a < sz) ↔ dst.toNat + m ≤ sz.toNat := by
  have less : dst.toNat < sz.toNat := inside
  constructor
  · intro below
    by_contra beyond
    -- the byte at `sz` itself is among them
    have member : dst + BitVec.ofNat 32 (sz.toNat - dst.toNat) ∈ addresses dst m :=
      List.mem_map.2 ⟨sz.toNat - dst.toNat, List.mem_range.2 (by omega), rfl⟩
    have := below _ member
    bv_omega
  · intro fits a member
    obtain ⟨k, bound, rfl⟩ := List.mem_map.1 member
    have := List.mem_range.1 bound
    bv_omega

theorem min_bounds {a b : BitVec 32} (positive : 0 < b) (some' : 0 < a) : 0 < min a b ∧ min a b ≤ a := by
  unfold min
  split <;> bv_omega

/-- **`readi` stores its bytes one after the other.** -/
theorem readiLoop_addresses (content : BitVec 32 → Byte) (n : BitVec 32) (rounds : Nat) (tot off : BitVec 32) (dst : Addr)
    (enough : (n - tot).toNat ≤ rounds) (within : tot ≤ n) :
    (readiLoop content n rounds tot off dst).map Prod.fst = addresses dst (n - tot).toNat := by
  induction rounds generalizing tot off dst with
  | zero =>
    rw [Nat.le_zero.1 enough]
    rfl
  | succ rounds ih =>
    unfold readiLoop
    split
    · rename_i more
      have block : 0 < BSIZE - off % BSIZE := by
        have : off % BSIZE < BSIZE := BitVec.umod_lt off (by decide)
        bv_omega
      obtain ⟨positive, atMost⟩ := min_bounds block (show 0 < n - tot by bv_omega)
      dsimp only
      generalize min (n - tot) (BSIZE - off % BSIZE) = m at positive atMost
      rw [List.map_append, memmove_addresses, ih (tot + m) (off + m) (dst + m) (by bv_omega) (by bv_omega)]
      have split_ : (n - tot).toNat = m.toNat + (n - (tot + m)).toNat := by bv_omega
      rw [split_, addresses_add, BitVec.ofNat_toNat, BitVec.setWidth_eq]
    · have done : (n - tot).toNat = 0 := by bv_omega
      rw [done]
      rfl

theorem pipereadLoop_addresses (addr : Addr) (n : Int) (i : Nat) (unread : List Byte) :
    ∀ a ∈ (pipereadLoop addr n i unread).map Prod.fst, ∃ k : Nat, (k : Int) < n ∧ a = addr + BitVec.ofNat 32 k := by
  induction unread generalizing i with
  | nil => simp [pipereadLoop]
  | cons c unread ih =>
    unfold pipereadLoop
    split
    · rename_i more
      intro a member
      rcases List.mem_cons.1 member with rfl | later
      · exact ⟨i, more, rfl⟩
      · exact ih (i + 1) a later
    · simp

theorem consolereadLoop_addresses (dst : Addr) (n : Int) (input : List Byte) :
    ∀ a ∈ (consolereadLoop dst n input).map Prod.fst, ∃ k : Nat, (k : Int) < n ∧ a = dst + BitVec.ofNat 32 k := by
  induction input generalizing dst n with
  | nil => simp [consolereadLoop]
  | cons c input ih =>
    unfold consolereadLoop
    split
    · rename_i more
      split
      · simp
      · intro a member
        rcases List.mem_cons.1 member with rfl | later
        · exact ⟨0, more, by simp⟩
        · split at later
          · cases later
          · obtain ⟨k, bound, rfl⟩ := ih (dst + 1) (n - 1) a later
            exact ⟨k + 1, by omega, by rw [BitVec.add_assoc, Nat.add_comm k 1, BitVec.ofNat_add]; rfl⟩
    · simp

/-! ## What the checks guarantee -/

section
variable {p : Proc} {k : Nat} {size : BitVec 32} {i : Addr}

theorem argptr_inside (got : argptr p k size = some i) : i < p.sz ∧ i + size ≤ p.sz := by
  unfold argptr at got
  split at got
  · cases got
  · split_ifs at got with outside
    cases got
    rw [not_or] at outside
    exact ⟨by bv_omega, by bv_omega⟩

/-- A size that is not negative as an `int` makes the check of `argptr` sound. -/
theorem argptr_fits (small : p.sz < KERNBASE) (got : argptr p k size = some i) (positive : 0 ≤ size.toInt) :
    i.toNat + size.toNat ≤ p.sz.toNat := by
  obtain ⟨start, stop⟩ := argptr_inside got
  have base : KERNBASE = 0x80000000 := rfl
  have range : size.toNat < 2 ^ 31 := by
    rw [BitVec.toInt_eq_toNat_cond] at positive
    split at positive <;> omega
  rw [base] at small
  bv_omega

/-- Stores of at most `n` bytes, counted as an `int`. -/
theorem int_stores_confined (small : p.sz < KERNBASE) (got : argptr p k size = some i) {a : Addr}
    (store : ∃ j : Nat, (j : Int) < size.toInt ∧ a = i + BitVec.ofNat 32 j) : a < p.sz := by
  obtain ⟨j, bound, rfl⟩ := store
  have positive : 0 ≤ size.toInt := by omega
  have fits := argptr_fits small got positive
  have word : size.toInt = size.toNat := by
    rw [BitVec.toInt_eq_toNat_cond] at positive ⊢
    split at positive <;> omega
  bv_omega

/-- A field inside of a checked block. -/
theorem storeField_confined (small : p.sz < KERNBASE) (got : argptr p k size = some i) (positive : 0 ≤ size.toInt)
    (start bytes : Nat) {w : Nat} {v : BitVec w} (field : start + bytes ≤ size.toNat) :
    ∀ st ∈ storeField (i + BitVec.ofNat 32 start) bytes v, st.1 < p.sz := by
  intro st member
  obtain ⟨j, bound, rfl⟩ := List.mem_map.1 member
  have fits := argptr_fits small got positive
  have := List.mem_range.1 bound
  show i + BitVec.ofNat 32 start + BitVec.ofNat 32 j < p.sz
  bv_omega

theorem sysFstat_confined (small : p.sz < KERNBASE) : ∀ st ∈ sysFstat p, st.1 < p.sz := by
  unfold sysFstat
  split
  · rename_i ip _ st _ got
    have field (start bytes : Nat) {w : Nat} {v : BitVec w} (inside : start + bytes ≤ 20) :=
      storeField_confined (v := v) small got (by decide) start bytes inside
    intro store member
    simp only [stati, List.mem_append] at member
    rcases member with (((dev | ino) | type) | nlink) | size
    · exact field 4 4 (by decide) _ dev
    · exact field 8 4 (by decide) _ ino
    · exact field 0 2 (by decide) _ (by simpa using type)
    · exact field 12 2 (by decide) _ nlink
    · exact field 16 4 (by decide) _ size
  · simp

theorem sysPipe_confined (small : p.sz < KERNBASE) (fds : Option (BitVec 32 × BitVec 32)) :
    ∀ st ∈ sysPipe p fds, st.1 < p.sz := by
  unfold sysPipe
  split
  · rename_i fd fd0 fd1 got
    intro store member
    rcases List.mem_append.1 member with first | second
    · exact storeField_confined small got (by decide) 0 4 (by decide) _ (by simpa using first)
    · exact storeField_confined small got (by decide) 4 4 (by decide) _ second
  · simp

/-- What `readi` copies of a request for `n` bytes at `off`. -/
def Inode.copied (ip : Inode) (off n : BitVec 32) : Nat :=
  if off.toNat + n.toNat > ip.size.toNat then ip.size.toNat - off.toNat else n.toNat

/-- The negative byte counts that `readi` takes for large ones end inside of the process. -/
def NegativeFits (p : Proc) : Prop :=
  ∀ f n dst ip off, argfd p 0 = some f → argint p 2 = some n → argptr p 1 n = some dst → f.readable = true →
    f.object = .inode ip off → ip.type ≠ .dev → n.toInt < 0 → off ≤ ip.size → off.toNat + n.toNat < 2 ^ 32 →
    dst.toNat + ip.copied off n ≤ p.sz.toNat

theorem readi_stores {ip : Inode} (input : List Byte) {dst : Addr} {off n : BitVec 32} (plain : ip.type ≠ .dev)
    (inside : off ≤ ip.size) (range : off.toNat + n.toNat < 2 ^ 32) :
    (readi ip input dst off n).map Prod.fst = addresses dst (ip.copied off n) := by
  have accepted : ¬ (off > ip.size ∨ off + n < off) := by
    rw [not_or]
    exact ⟨by bv_omega, by bv_omega⟩
  simp only [readi, plain, accepted, if_false]
  rw [readiLoop_addresses _ _ _ _ _ _ (by simp) (by bv_omega)]
  congr 1
  unfold Inode.copied
  split_ifs <;> bv_omega

theorem readi_confined {ip : Inode} {input : List Byte} {dst : Addr} {off n : BitVec 32} (small : p.sz < KERNBASE)
    (pointer : argptr p k n = some dst)
    (fits : ip.type ≠ .dev → n.toInt < 0 → off ≤ ip.size → off.toNat + n.toNat < 2 ^ 32 →
      dst.toNat + ip.copied off n ≤ p.sz.toNat) :
    ∀ a ∈ (readi ip input dst off n).map Prod.fst, a < p.sz := by
  by_cases device : ip.type = .dev
  · simp only [readi, device, if_true]
    split
    · exact fun a member => int_stores_confined small pointer (consolereadLoop_addresses dst n.toInt input a member)
    · simp
  · by_cases accepted : off ≤ ip.size ∧ off.toNat + n.toNat < 2 ^ 32
    · rw [readi_stores input device accepted.1 accepted.2, addresses_below_iff (argptr_inside pointer).1]
      by_cases negative : n.toInt < 0
      · exact fits device negative accepted.1 accepted.2
      · have whole := argptr_fits small pointer (not_lt.1 negative)
        have clipped : ip.copied off n ≤ n.toNat := by
          unfold Inode.copied
          split_ifs <;> omega
        omega
    · have rejected : off > ip.size ∨ off + n < off := by
        by_contra passed
        rw [not_or] at passed
        exact accepted ⟨by bv_omega, by bv_omega⟩
      simp [readi, device, rejected]

theorem fileread_confined {f : File} {input : List Byte} {dst : Addr} {n : BitVec 32} (small : p.sz < KERNBASE)
    (pointer : argptr p k n = some dst)
    (fits : ∀ ip off, f.readable = true → f.object = .inode ip off → ip.type ≠ .dev → n.toInt < 0 → off ≤ ip.size →
      off.toNat + n.toNat < 2 ^ 32 → dst.toNat + ip.copied off n ≤ p.sz.toNat) :
    ∀ a ∈ (fileread f input dst n).map Prod.fst, a < p.sz := by
  unfold fileread
  split
  · rename_i readable
    split
    · simp
    · rename_i unread _
      exact fun a member => int_stores_confined small pointer (pipereadLoop_addresses dst n.toInt 0 unread a member)
    · rename_i ip off object
      exact readi_confined small pointer (fits ip off readable object)
  · simp

/-- **Stores through user pointers.** For a process below `KERNBASE`, `fstat` and `pipe` store inside of the process,
and `read` does if and only if a negative byte count does not become a large one that reaches beyond its end. -/
theorem stores_confined_iff (small : p.sz < KERNBASE) (input : List Byte) :
    (∀ st ∈ sysFstat p, st.1 < p.sz) ∧ (∀ fds, ∀ st ∈ sysPipe p fds, st.1 < p.sz) ∧
      ((∀ st ∈ sysRead p input, st.1 < p.sz) ↔ NegativeFits p) := by
  refine ⟨sysFstat_confined small, sysPipe_confined small, ?_⟩
  constructor
  · intro confined f n dst ip off file count pointer readable object plain negative inside range
    have stores : sysRead p input = readi ip input dst off n := by
      simp [sysRead, file, count, pointer, fileread, readable, object]
    refine (addresses_below_iff (argptr_inside pointer).1 _).1 ?_
    rw [← readi_stores input plain inside range, ← stores]
    intro a member
    obtain ⟨st, stored, rfl⟩ := List.mem_map.1 member
    exact confined st stored
  · intro fits st stored
    have member : st.1 ∈ (sysRead p input).map Prod.fst := List.mem_map_of_mem stored
    unfold sysRead at member
    split at member
    · rename_i f n file count
      split at member
      · rename_i dst pointer
        exact fileread_confined small pointer
          (fun ip off readable object plain negative inside range =>
            fits f n dst ip off file count pointer readable object plain negative inside range) _ member
      · cases member
    · cases member

end

/-! ## A count of -100 -/

/-- A process of two pages that calls `read` on a file of 512 bytes, from its start, for `n` bytes at address 8100. -/
def reader (n : BitVec 32) : Proc where
  sz := 8192
  esp := 4096
  mem := fun a =>
    let args : List (BitVec 32) := [0, 0, 8100, n]
    (args.getD ((a - 4096).toNat / 4) 0 >>> (8 * (a.toNat % 4))).setWidth 8
  ofile := fun _ => some ⟨true, .inode ⟨1, 2, .file, 0, 1, 512, fun _ => 7⟩ 0⟩

/-- For 92 bytes the buffer ends with the process. -/
theorem stores_confined_reader :
    (reader 92).sz < KERNBASE ∧ ∀ st ∈ sysRead (reader 92) [], st.1 < (reader 92).sz := by
  refine ⟨by decide, (stores_confined_iff (p := reader 92) (by decide) []).2.2.2 ?_⟩
  intro f n dst ip off _ count _ _ _ _ negative
  have is : argint (reader 92) 2 = some 92 := by decide
  rw [is] at count
  cases count
  exact absurd negative (by decide)

/-- For -100 bytes the check passes and the whole file is stored, most of it beyond the end of the process. -/
theorem read_negative_count : (reader (-100)).sz < KERNBASE ∧ argptr (reader (-100)) 1 (-100) = some 8100 ∧
    ∃ st ∈ sysRead (reader (-100)) [], ¬ st.1 < (reader (-100)).sz := by
  have found : (sysRead (reader (-100)) []).any (fun st => !decide (st.1 < (reader (-100)).sz)) = true := by decide +kernel
  obtain ⟨st, stored, beyond⟩ := List.any_eq_true.1 found
  exact ⟨by decide, by decide, st, stored, by simpa using beyond⟩

end Xv6.User
