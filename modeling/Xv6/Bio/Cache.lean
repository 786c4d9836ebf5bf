import Xv6.Lib.DList
import Xv6.Param

/-!
# The buffers and their list

`struct buf` and `bcache` of `bio.c`, and `iderw` of the memory disk. A pointer
to a buffer is its index; the pointers of the list also point to `bcache.head`,
which is `none`. Block contents are of an arbitrary type.
-/

namespace Xv6.Bio

open Xv6.Lib

/-- A buffer of `bcache.buf`. -/
abbrev BufPtr := Fin NBUF

instance BufPtr.decidableMem (b : BufPtr) (l : List BufPtr) : Decidable (b ∈ l) := inferInstance

/-- A link of the list; `none` is `&bcache.head`. -/
abbrev Ptr := Option BufPtr

/-- `B_BUSY`, `B_VALID` and `B_DIRTY`. -/
structure Flags where
  busy : Bool := false
  valid : Bool := false
  dirty : Bool := false
  deriving DecidableEq, Repr

/-- `struct buf` without its links. -/
structure Buf (D : Type) where
  flags : Flags := {}
  dev : BitVec 32 := 0
  sector : BitVec 32 := 0
  data : D

/-- `bcache`: the buffers, and the links of the buffers and of `head`. -/
structure Cache (D : Type) where
  buf : BufPtr → Buf D
  next : Ptr → Ptr
  prev : Ptr → Ptr

/-- The block that a buffer holds. -/
def Buf.key {D : Type} (b : Buf D) : BitVec 32 × BitVec 32 := (b.dev, b.sector)

/-- The ways to panic in `bio.c`, `memide.c` and `log.c`. -/
inductive Panic where
  /-- `bget: no buffers` -/
  | noBuffers
  /-- `bwrite` -/
  | bwrite
  /-- `brelse` -/
  | brelse
  /-- `iderw: buf not busy` -/
  | notBusy
  /-- `iderw: nothing to do` -/
  | nothingToDo
  /-- `iderw: request not for disk 1` -/
  | notDisk
  /-- `iderw: sector out of range` -/
  | outOfRange
  /-- `log.committing` -/
  | committing
  /-- `too big a transaction` -/
  | tooBig
  /-- `log_write outside of trans` -/
  | outside
  deriving DecidableEq, Repr

section
variable {D : Type}

namespace Cache

def modify (c : Cache D) (b : BufPtr) (f : Buf D → Buf D) : Cache D :=
  { c with buf := Function.update c.buf b (f (c.buf b)) }

def setNext (c : Cache D) (p q : Ptr) : Cache D := { c with next := Function.update c.next p q }

def setPrev (c : Cache D) (p q : Ptr) : Cache D := { c with prev := Function.update c.prev p q }

/-- `b->next->prev = b->prev; b->prev->next = b->next`. -/
def unlink (c : Cache D) (b : BufPtr) : Cache D :=
  let c := c.setPrev (c.next b) (c.prev b)
  c.setNext (c.prev b) (c.next b)

/-- `b->next = head.next; b->prev = &head; head.next->prev = b; head.next = b`. -/
def pushFront (c : Cache D) (b : BufPtr) : Cache D :=
  let c := c.setNext b (c.next none)
  let c := c.setPrev b none
  let c := c.setPrev (c.next none) b
  c.setNext none b

end Cache

/-- `binit`, from a `bcache` of zeroes. -/
def binit (zero : D) : Cache D :=
  let c : Cache D := ⟨fun _ => { data := zero }, fun _ => none, fun _ => none⟩
  (List.finRange NBUF).foldl (fun c b => (c.pushFront b).modify b fun r => { r with dev := -1 }) c

/-- `iderw` on the buffer `b` and a disk of `disksize` sectors: with `B_DIRTY` it writes, else it reads. -/
def iderw (disksize : Nat) (b : Buf D) (disk : BitVec 32 → D) : Except Panic (Buf D × (BitVec 32 → D)) :=
  if ¬ b.flags.busy then .error .notBusy
  else if b.flags.valid ∧ ¬ b.flags.dirty then .error .nothingToDo
  else if b.dev ≠ 1 then .error .notDisk
  else if b.sector.toNat ≥ disksize then .error .outOfRange
  else if b.flags.dirty then
    .ok ({ b with flags := { b.flags with dirty := false, valid := true } }, Function.update disk b.sector b.data)
  else .ok ({ b with flags := { b.flags with valid := true }, data := disk b.sector }, disk)

/-! ## What the links hold -/

namespace Cache

variable {c : Cache D} {b : BufPtr} {l : List BufPtr}

/-- The links of the buffers and of `head` form a circular doubly linked list: `head`, then `l`. -/
def Ring (c : Cache D) (l : List BufPtr) : Prop :=
  IsDList (fun b => c.next (some b)) (fun b => c.prev (some b)) (c.next none) (c.prev none) l

theorem Ring.of_links {c' : Cache D} (ring : Ring c l) (next : c'.next = c.next) (prev : c'.prev = c.prev) : Ring c' l := by
  unfold Ring
  rw [next, prev]
  exact ring

theorem modify_buf (f : Buf D → Buf D) (b' : BufPtr) :
    (c.modify b f).buf b' = if b' = b then f (c.buf b) else c.buf b' := by
  by_cases same : b' = b
  · subst same
    simp [modify]
  · simp [modify, same]

@[simp] theorem modify_buf_self (f : Buf D → Buf D) : (c.modify b f).buf b = f (c.buf b) := by simp [modify_buf]

theorem modify_buf_ne {b' : BufPtr} (ne : b' ≠ b) (f : Buf D → Buf D) : (c.modify b f).buf b' = c.buf b' := by
  simp [modify_buf, ne]

/-- A field that the store passes over. -/
theorem modify_data {β : Type} (f : Buf D → Buf D) (g : Buf D → β) (blind : g (f (c.buf b)) = g (c.buf b)) (b' : BufPtr) :
    g ((c.modify b f).buf b') = g (c.buf b') := by
  rw [modify_buf]
  split_ifs with same
  · rw [same, blind]
  · rfl

/-- A buffer off the list is put in front. -/
theorem Ring.pushFront (ring : Ring c l) (fresh : b ∉ l) : Ring (c.pushFront b) (b :: l) := by
  have whole := ring.prepend fresh
  have noPrev : ∀ a, c.next none = some a → a ≠ b := by
    rintro a first rfl
    rw [ring.first_eq] at first
    exact fresh (List.mem_of_mem_head? first)
  unfold Ring
  convert whole using 1
  · funext a
    by_cases same : a = b
    · subst same
      simp [Cache.pushFront, setNext, setPrev]
    · simp [Cache.pushFront, setNext, setPrev, same]
  · funext a
    by_cases first : c.next none = some a
    · simp [Cache.pushFront, setNext, setPrev, first]
    · have ne : some a ≠ c.next none := fun same => first same.symm
      by_cases same : a = b
      · subst same
        simp [Cache.pushFront, setNext, setPrev, first, ne, ring.prev_none fresh]
      · simp [Cache.pushFront, setNext, setPrev, first, ne, same]
  · simp [Cache.pushFront, setNext, setPrev]
  · cases first : c.next none with
    | none =>
      have last : c.prev none = none := ring.first_none_iff.1 first
      simp [Cache.pushFront, setNext, setPrev, first, last]
    | some a =>
      have last : c.prev none ≠ none := fun h => by
        rw [ring.first_none_iff.2 h] at first
        cases first
      obtain ⟨z, last⟩ := Option.ne_none_iff_exists'.1 last
      simp [Cache.pushFront, setNext, setPrev, first, last]

/-- Unlinking a buffer, its own links then cleared. -/
theorem Ring.unlink (ring : Ring c l) (member : b ∈ l) :
    Ring (((c.unlink b).setNext b none).setPrev b none) (l.erase b) := by
  have whole := ring.erase b
  have apart : c.next (some b) ≠ some b := ring.next_ne_self b
  have links (a : BufPtr) : c.prev (some b) = some a ↔ c.next (some a) = some b := ring.prev_iff
  have links' (a : BufPtr) : c.next (some b) = some a ↔ c.prev (some a) = some b := ring.prev_iff.symm
  have first : c.prev (some b) = none ↔ c.next none = some b := ring.prev_none_iff member
  have last : c.next (some b) = none ↔ c.prev none = some b := ring.next_none_iff member
  have prev : (c.unlink b).prev = Function.update c.prev (c.next b) (c.prev b) := rfl
  have next : (c.unlink b).next = Function.update c.next (c.prev b) (c.next b) := by
    simp [Cache.unlink, setNext, setPrev, apart.symm]
  unfold Ring
  convert whole using 1
  · funext a
    by_cases same : a = b
    · subst same
      simp [setNext, setPrev]
    · rw [if_neg same]
      by_cases before : c.prev (some b) = some a
      · simp [setNext, setPrev, next, same, before, (links a).1 before]
      · have other : ¬ c.next (some a) = some b := fun h => before ((links a).2 h)
        simp [setNext, setPrev, next, same, Function.update_of_ne (Ne.symm before), other]
  · funext a
    by_cases same : a = b
    · subst same
      simp [setNext, setPrev]
    · rw [if_neg same]
      by_cases after : c.next (some b) = some a
      · simp [setNext, setPrev, prev, same, after, (links' a).1 after]
      · have other : ¬ c.prev (some a) = some b := fun h => after ((links' a).2 h)
        simp [setNext, setPrev, prev, same, Function.update_of_ne (Ne.symm after), other]
  · by_cases front : c.prev (some b) = none
    · simp [setNext, setPrev, next, front, first.1 front]
    · have other : ¬ c.next none = some b := fun h => front (first.2 h)
      simp [setNext, setPrev, next, Function.update_of_ne (Ne.symm front), other]
  · by_cases back : c.next (some b) = none
    · simp [setNext, setPrev, prev, back, last.1 back]
    · have other : ¬ c.prev none = some b := fun h => back (last.2 h)
      simp [setNext, setPrev, prev, Function.update_of_ne (Ne.symm back), other]

/-- `pushFront` overwrites the links of the buffer it is given. -/
theorem pushFront_clear (c : Cache D) (b : BufPtr) :
    (((c.setNext b none).setPrev b none).pushFront b).next = (c.pushFront b).next ∧
      (((c.setNext b none).setPrev b none).pushFront b).prev = (c.pushFront b).prev := by
  simp [Cache.pushFront, setNext, setPrev]

/-- **What `brelse` does to the list**: the buffer moves to the front. -/
theorem Ring.toFront (ring : Ring c l) (member : b ∈ l) : Ring ((c.unlink b).pushFront b) (b :: l.erase b) := by
  have cleared := (ring.unlink member).pushFront ring.nodup.not_mem_erase
  obtain ⟨next, prev⟩ := pushFront_clear (c.unlink b) b
  exact cleared.of_links next.symm prev.symm

@[simp] theorem pushFront_buf (c : Cache D) (b : BufPtr) : (c.pushFront b).buf = c.buf := rfl

@[simp] theorem unlink_buf (c : Cache D) (b : BufPtr) : (c.unlink b).buf = c.buf := rfl

end Cache

/-- The list that `binit` makes: the last buffer in front. -/
theorem binit_ring (zero : D) : (binit zero).Ring (List.finRange NBUF).reverse := by
  have fold : ∀ (bs l : List BufPtr) (c : Cache D), c.Ring l → bs.Nodup → (∀ b ∈ bs, b ∉ l) →
      (bs.foldl (fun c b => (c.pushFront b).modify b fun r => { r with dev := -1 }) c).Ring (bs.reverse ++ l) := by
    intro bs
    induction bs with
    | nil => intro l c ring _ _; simpa using ring
    | cons b bs ih =>
      intro l c ring nodup fresh
      obtain ⟨outside, nodup⟩ := List.nodup_cons.1 nodup
      have pushed : (c.pushFront b).Ring (b :: l) := ring.pushFront (fresh b (by simp))
      have rest := ih (b :: l) ((c.pushFront b).modify b fun r => { r with dev := -1 }) (pushed.of_links rfl rfl) nodup ?_
      · simpa using rest
      · intro b' member
        rw [List.mem_cons, not_or]
        exact ⟨fun same => outside (same ▸ member), fresh b' (List.mem_cons_of_mem _ member)⟩
  have empty : (⟨fun _ => { data := zero }, fun _ => none, fun _ => none⟩ : Cache D).Ring [] :=
    IsDList.empty _ _ (fun _ => rfl) fun _ => rfl
  simpa [binit] using fold (List.finRange NBUF) [] _ empty (List.nodup_finRange NBUF) (by simp)

/-- After `binit` every buffer is free and holds no block. -/
theorem binit_buf (zero : D) (b : BufPtr) : (binit zero).buf b = { dev := -1, data := zero } := by
  have fold : ∀ (bs : List BufPtr) (c : Cache D), (∀ b, c.buf b = { data := zero } ∨ c.buf b = { dev := -1, data := zero }) →
      ∀ b, (b ∈ bs ∨ c.buf b = { dev := -1, data := zero }) →
        (bs.foldl (fun c b => (c.pushFront b).modify b fun r => { r with dev := -1 }) c).buf b =
          { dev := -1, data := zero } := by
    intro bs
    induction bs with
    | nil => intro c _ b h; simpa using h
    | cons a bs ih =>
      intro c start b h
      have set : ((c.pushFront a).modify a fun r => { r with dev := -1 }).buf a = { dev := -1, data := zero } := by
        rcases start a with h | h <;> simp [h]
      refine ih _ ?_ b ?_
      · intro b'
        rcases eq_or_ne b' a with rfl | ne
        · exact .inr set
        · rw [Cache.modify_buf_ne ne]
          exact start b'
      · rcases eq_or_ne b a with rfl | ne
        · exact .inr set
        · rw [Cache.modify_buf_ne ne]
          exact h.imp_left fun member => (List.mem_cons.1 member).resolve_left ne
  unfold binit
  dsimp only
  exact fold _ _ (fun _ => .inl rfl) b (.inl (List.mem_finRange b))

end

end Xv6.Bio
