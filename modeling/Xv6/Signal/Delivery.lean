import Xv6.Lib.History
import Xv6.Signal.Machine

/-!
# Pending signals are a set

`pending` is a signed word tested with `> 0`, `sigsend` sets a bit of it and
`handleSignals` clears the lowest one. Over every history of sends, returns from
system calls and returns from handlers, the word is the set of the signals that
were sent and not delivered since, delivery takes the smallest of them, and there
is one handler at a time.
-/

namespace Xv6.Signal

open Xv6.Lib

/-! ## The lowest bit -/

theorem getLsbD_sshiftRight_one {num : BitVec 32} {j : Nat} (lt : j + 1 < 32) :
    (num.sshiftRight 1).getLsbD j = num.getLsbD (j + 1) := by
  rw [BitVec.getLsbD_sshiftRight]
  simp [lt, Nat.add_comm 1 j]
  omega

theorem and_one_eq_zero {num : BitVec 32} : num &&& 1 = 0 ↔ num.getLsbD 0 = false := by
  constructor
  · intro zero
    have bit := congrArg (fun v : BitVec 32 => v.getLsbD 0) zero
    simpa using bit
  · intro clear
    ext i lt
    rcases Nat.eq_zero_or_pos i with rfl | pos
    · simpa using clear
    · simp [BitVec.getElem_one, Nat.ne_of_gt pos]

/-- The loop stops at the lowest bit that is set. -/
theorem lowestSetBitLoop_eq {k : Nat} (fuel : Nat) (num : BitVec 32) (bitNum : Nat) (inside : k < 32) (enough : k < fuel)
    (set : num.getLsbD k = true) (least : ∀ j < k, num.getLsbD j = false) :
    lowestSetBitLoop fuel num bitNum = bitNum + k := by
  induction fuel generalizing num bitNum k with
  | zero => omega
  | succ fuel ih =>
    unfold lowestSetBitLoop
    cases k with
    | zero =>
      have odd : ¬ num &&& 1 = 0 := by
        rw [and_one_eq_zero, set]
        decide
      rw [if_neg odd, Nat.add_zero]
    | succ k =>
      rw [if_pos (and_one_eq_zero.2 (least 0 (Nat.succ_pos k)))]
      have next : (num.sshiftRight 1).getLsbD k = true := by rw [getLsbD_sshiftRight_one inside, set]
      rw [ih (num.sshiftRight 1) (bitNum + 1) (by omega) (by omega) next ?_]
      · omega
      · intro j lt
        rw [getLsbD_sshiftRight_one (by omega)]
        exact least (j + 1) (by omega)

/-- `getLowestSetBit` of a word that is not 0 is its smallest element. -/
theorem getLowestSetBit_spec {num : BitVec 32} (nonzero : num ≠ 0) : ∃ k : Nat, getLowestSetBit num = k ∧ k < 32 ∧
    num.getLsbD k = true ∧ ∀ j < k, num.getLsbD j = false := by
  have some_ : ∃ k, num.getLsbD k = true := by
    by_contra none
    refine nonzero (BitVec.eq_of_getLsbD_eq fun i _ => ?_)
    simpa using fun h => none ⟨i, h⟩
  classical
  have set := Nat.find_spec some_
  have inside : Nat.find some_ < 32 := BitVec.lt_of_getLsbD set
  have least : ∀ j < Nat.find some_, num.getLsbD j = false := fun j lt => by simpa using Nat.find_min some_ lt
  refine ⟨Nat.find some_, ?_, inside, set, least⟩
  rw [getLowestSetBit, if_neg nonzero, lowestSetBitLoop_eq 32 num 0 inside inside set least, Nat.zero_add]

theorem getLsbD_setBit (num : BitVec 32) {n s : Nat} (lt : n < 32) :
    (num ||| ((1 : BitVec 32) <<< n)).getLsbD s = true ↔ num.getLsbD s = true ∨ s = n := by
  have one : ((1 : BitVec 32) <<< n).getLsbD s = decide (s = n) := by
    rw [BitVec.getLsbD_shiftLeft]
    by_cases same : s = n
    · simp [same, lt]
    · by_cases low : s < n
      · simp [low, same]
      · have above : s - n ≠ 0 := by omega
        simp [same, above, BitVec.getLsbD_one]
  rw [BitVec.getLsbD_or, one]
  simp

theorem getLsbD_clearBit {num : BitVec 32} {n s : Nat} (lt : n < 32) :
    (num &&& ~~~ ((1 : BitVec 32) <<< n)).getLsbD s = true ↔ num.getLsbD s = true ∧ s ≠ n := by
  have one : ((1 : BitVec 32) <<< n).getLsbD s = true ↔ s = n := by
    have := getLsbD_setBit 0 (s := s) lt
    simpa using this
  rw [BitVec.getLsbD_and, BitVec.getLsbD_not, Bool.and_eq_true, Bool.and_eq_true, Bool.not_eq_true', decide_eq_true_iff,
    ← Bool.not_eq_true, one]
  exact ⟨fun h => ⟨h.1, h.2.2⟩, fun h => ⟨h.1, BitVec.lt_of_getLsbD h.1, h.2⟩⟩

/-- A word whose sign bit is clear is positive as soon as it is not 0. -/
theorem toInt_of_clear {num : BitVec 32} (clear : num.getLsbD 31 = false) : num.toInt = num.toNat := by
  refine BitVec.toInt_eq_toNat_of_msb ?_
  rw [BitVec.msb_eq_getLsbD_last]
  exact clear

/-! ## Histories -/

/-- What happens to the signals of one process. -/
inductive Act where
  /-- some process sends it a signal -/
  | sigsend (signum : Int)
  /-- it returns from a system call, with this trap frame, through `handleSignals` -/
  | ret (frame : Trapframe) (kalloc : Bool)
  | sigreturn
  deriving DecidableEq

def act (p : Proc) : Act → Option Proc
  | .sigsend signum => some (p.sigsend signum)
  | .ret frame kalloc => if frame.trapno = T_SYSCALL then some ({ p with tf := frame }.handleSignals kalloc) else none
  | .sigreturn => some p.sysSigreturn

/-- The signal that is delivered in this step. -/
def delivered (q : Proc × Act) : Option Nat :=
  match q.2 with
  | .ret frame _ => if { q.1 with tf := frame }.Delivers then some (getLowestSetBit q.1.pending).toNat else none
  | _ => none

/-- Signal `s` has been sent, and not delivered since. -/
def Outstanding (tr : List (Proc × Act)) (s : Nat) : Prop :=
  s ≤ 30 ∧ Since (fun q => q.2 = .sigsend s) (fun q => delivered q = some s) tr

/-- A signal has been delivered, and its handler has not returned. -/
def Handling (tr : List (Proc × Act)) : Prop := Since (fun q => (delivered q).isSome) (fun q => q.2 = .sigreturn) tr

section
variable {p p' p0 : Proc} {a : Act} {s : Nat} {tr : List (Proc × Act)}

/-- The word, as the history explains it. -/
structure Explained (tr : List (Proc × Act)) (p : Proc) : Prop where
  set : ∀ s, p.pending.getLsbD s = true ↔ Outstanding tr s
  flag : p.insignal = 0 ∨ p.insignal = 1
  handling : p.insignal = 1 ↔ Handling tr

theorem Explained.clear (explained : Explained tr p) : p.pending.getLsbD 31 = false := by
  by_contra set
  have := (explained.set 31).1 (by simpa using set)
  exact absurd this.1 (by decide)

/-- **When `handleSignals` delivers**, and what. -/
theorem Explained.delivers_iff (explained : Explained tr p) {frame : Trapframe} (syscall : frame.trapno = T_SYSCALL) :
    { p with tf := frame }.Delivers ↔ (∃ s, Outstanding tr s) ∧ ¬ Handling tr := by
  have some_ : 0 < p.pending.toInt ↔ ∃ s, Outstanding tr s := by
    rw [toInt_of_clear explained.clear]
    constructor
    · intro pos
      have nonzero : p.pending ≠ 0 := by
        intro zero
        rw [zero] at pos
        simp at pos
      obtain ⟨k, _, _, set, _⟩ := getLowestSetBit_spec nonzero
      exact ⟨k, (explained.set k).1 set⟩
    · rintro ⟨s, outstanding⟩
      have set := (explained.set s).2 outstanding
      by_contra zero
      have isZero : p.pending = 0 := BitVec.eq_of_toNat_eq (by simpa using zero)
      rw [isZero] at set
      simp at set
  have idle : p.insignal = 0 ↔ ¬ Handling tr := by
    rw [← explained.handling]
    rcases explained.flag with zero | one
    · rw [zero]
      decide
    · rw [one]
      decide
  constructor
  · rintro ⟨_, pos, zero⟩
    exact ⟨some_.1 pos, idle.1 zero⟩
  · rintro ⟨outstanding, free⟩
    exact ⟨syscall, some_.2 outstanding, idle.2 free⟩

/-- The signal delivered is the smallest one that is outstanding. -/
theorem Explained.delivered_eq (explained : Explained tr p) {frame : Trapframe} (kalloc : Bool)
    (delivers : { p with tf := frame }.Delivers) : ∃ k, delivered (p, .ret frame kalloc) = some k ∧
      getLowestSetBit p.pending = k ∧ k < 32 ∧ Outstanding tr k ∧ ∀ s, Outstanding tr s → k ≤ s := by
  have nonzero : p.pending ≠ 0 := by
    intro zero
    have pos : 0 < p.pending.toInt := delivers.2.1
    rw [zero] at pos
    simp at pos
  obtain ⟨k, lowest, inside, set, least⟩ := getLowestSetBit_spec nonzero
  refine ⟨k, ?_, lowest, inside, (explained.set k).1 set, fun s outstanding => ?_⟩
  · simp only [delivered]
    rw [if_pos delivers, lowest]
    rfl
  · by_contra below
    have bit := (explained.set s).2 outstanding
    rw [least s (by omega)] at bit
    cases bit

/-- The fields of a process after a delivery. -/
theorem handleSignals_fields {q : Proc} (kalloc : Bool) (delivers : q.Delivers) :
    (q.handleSignals kalloc).pending = q.pending &&& ~~~ ((1 : BitVec 32) <<< (getLowestSetBit q.pending).toNat) ∧
      (q.handleSignals kalloc).insignal = 1 ∧
      (q.handleSignals kalloc).tf.eip = q.signal_handlers (getLowestSetBit q.pending).toNat := by
  unfold Proc.handleSignals Proc.saveFrame
  rw [if_pos delivers]
  cases q.backuptf <;> cases kalloc <;> exact ⟨rfl, rfl, rfl⟩

theorem outstanding_concat {q : Proc × Act} :
    Outstanding (tr ++ [q]) s ↔ s ≤ 30 ∧ q.2 = .sigsend s ∨ Outstanding tr s ∧ delivered q ≠ some s := by
  rw [Outstanding, since_concat, Outstanding]
  tauto

theorem Explained.sigsend (explained : Explained tr p) (signum : Int) :
    Explained (tr ++ [(p, .sigsend signum)]) (p.sigsend signum) := by
  have kept : (p.sigsend signum).insignal = p.insignal := by
    unfold Proc.sigsend
    split_ifs <;> rfl
  refine ⟨fun s => ?_, kept ▸ explained.flag, ?_⟩
  · rw [outstanding_concat, ← explained.set]
    unfold Proc.sigsend
    split_ifs with outside
    · have other : ¬ (s ≤ 30 ∧ Act.sigsend signum = .sigsend s) := by
        rintro ⟨le, same⟩
        cases same
        omega
      rw [or_iff_right other]
      simp [delivered]
    · have bit := getLsbD_setBit p.pending (n := signum.toNat) (s := s) (by omega)
      have is : s = signum.toNat ↔ s ≤ 30 ∧ Act.sigsend signum = .sigsend s := by
        constructor
        · intro same
          exact ⟨by omega, by rw [same, Int.toNat_of_nonneg (by omega)]⟩
        · rintro ⟨_, same⟩
          cases same
          rfl
      dsimp only
      rw [bit, is]
      simp [delivered, or_comm]
  · rw [kept, explained.handling, Handling, Handling, since_concat]
    simp [delivered]

theorem Explained.sigreturn (explained : Explained tr p) : Explained (tr ++ [(p, .sigreturn)]) p.sysSigreturn := by
  refine ⟨fun s => ?_, .inl rfl, ?_⟩
  · rw [outstanding_concat, ← explained.set]
    simp [delivered, Proc.sysSigreturn]
  · rw [Handling, since_concat]
    simp [delivered, Proc.sysSigreturn]

theorem Explained.ret (explained : Explained tr p) (frame : Trapframe) (kalloc : Bool) :
    Explained (tr ++ [(p, .ret frame kalloc)]) ({ p with tf := frame }.handleSignals kalloc) := by
  have noSend (s : Nat) : ¬ (s ≤ 30 ∧ Act.ret frame kalloc = .sigsend s) := fun h => by cases h.2
  by_cases delivers : { p with tf := frame }.Delivers
  · obtain ⟨k, isK, lowest, inside, _, _⟩ := explained.delivered_eq kalloc delivers
    obtain ⟨pending, insignal, _⟩ := handleSignals_fields kalloc delivers
    refine ⟨fun s => ?_, .inr insignal, ?_⟩
    · have other : some k ≠ some s ↔ s ≠ k := by rw [Ne, Option.some.injEq, eq_comm]
      rw [pending, outstanding_concat, or_iff_right (noSend s), ← explained.set, isK, other]
      dsimp only
      rw [lowest, Int.toNat_natCast, getLsbD_clearBit inside]
    · rw [insignal, Handling, since_concat, isK]
      simp
  · have same : { p with tf := frame }.handleSignals kalloc = { p with tf := frame } := if_neg delivers
    have none : delivered (p, .ret frame kalloc) = none := if_neg delivers
    rw [same]
    refine ⟨fun s => ?_, explained.flag, ?_⟩
    · rw [outstanding_concat, or_iff_right (noSend s), ← explained.set, none]
      simp
    · rw [Handling, since_concat, none]
      simpa [Handling] using explained.handling

theorem run_explained (run : Run act p0 tr p) (empty : p0.pending = 0) (idle : p0.insignal = 0) : Explained tr p := by
  refine run.history Explained ⟨fun s => ?_, .inl idle, ?_⟩ ?_
  · rw [empty]
    simp [Outstanding, not_since_nil]
  · rw [idle]
    simp [Handling, not_since_nil]
  · intro tr p a p' explained taken
    cases a with
    | sigsend signum =>
      cases taken
      exact explained.sigsend signum
    | ret frame kalloc =>
      simp only [act] at taken
      split_ifs at taken
      cases taken
      exact explained.ret _ kalloc
    | sigreturn =>
      cases taken
      exact explained.sigreturn

/-- A signal that is pending has been sent once more than delivered, at least. -/
theorem run_counted (run : Run act p0 tr p) (empty : p0.pending = 0) (idle : p0.insignal = 0) (s : Nat) :
    tr.countP (fun q => delivered q = some s) + (if p.pending.getLsbD s then 1 else 0) ≤
      tr.countP fun q => q.2 = .sigsend s := by
  have both : Explained tr p ∧ tr.countP (fun q => delivered q = some s) + (if p.pending.getLsbD s then 1 else 0) ≤
      tr.countP fun q => q.2 = .sigsend s := by
    refine run.history (fun tr p => Explained tr p ∧ tr.countP (fun q => delivered q = some s) +
      (if p.pending.getLsbD s then 1 else 0) ≤ tr.countP fun q => q.2 = .sigsend s)
      ⟨run_explained .start empty idle, by simp [empty]⟩ ?_
    rintro tr p a p' ⟨explained, counted⟩ taken
    rw [List.countP_append, List.countP_append, List.countP_singleton, List.countP_singleton]
    simp only [decide_eq_true_eq]
    cases a with
    | sigsend signum =>
      cases taken
      have next := explained.sigsend signum
      refine ⟨next, ?_⟩
      have bit := next.set s
      rw [outstanding_concat, ← explained.set] at bit
      by_cases same : Act.sigsend signum = .sigsend s
      · rw [if_neg (c := delivered (p, .sigsend signum) = some s) (by simp [delivered]), if_pos same]
        split_ifs <;> omega
      · have kept : (p.sigsend signum).pending.getLsbD s = true ↔ p.pending.getLsbD s = true := by
          rw [bit, or_iff_right fun h => same h.2]
          simp [delivered]
        rw [if_neg (c := delivered (p, .sigsend signum) = some s) (by simp [delivered]), if_neg same]
        simp only [kept]
        omega
    | ret frame kalloc =>
      simp only [act] at taken
      split_ifs at taken
      cases taken
      have next := explained.ret frame kalloc
      refine ⟨next, ?_⟩
      have bit := next.set s
      rw [outstanding_concat, ← explained.set, or_iff_right fun h => by cases h.2] at bit
      rw [if_neg (c := Act.ret frame kalloc = .sigsend s) (by simp)]
      by_cases here : delivered (p, .ret frame kalloc) = some s
      · -- the bit goes where the delivery comes
        have set : p.pending.getLsbD s = true := by
          by_cases delivers : { p with tf := frame }.Delivers
          · obtain ⟨k, isK, _, _, outstanding, _⟩ := explained.delivered_eq kalloc delivers
            cases here.symm.trans isK
            exact (explained.set s).2 outstanding
          · cases here.symm.trans (if_neg delivers)
        have gone : ¬ ({ p with tf := frame }.handleSignals kalloc).pending.getLsbD s = true := fun h => (bit.1 h).2 here
        rw [if_pos here, if_neg gone]
        rw [if_pos set] at counted
        omega
      · rw [if_neg here]
        have kept : ({ p with tf := frame }.handleSignals kalloc).pending.getLsbD s = true ↔ p.pending.getLsbD s = true := by
          rw [bit]
          exact and_iff_left here
        simp only [kept]
        omega
    | sigreturn =>
      cases taken
      refine ⟨explained.sigreturn, ?_⟩
      rw [if_neg (c := delivered (p, .sigreturn) = some s) (by simp [delivered]),
        if_neg (c := Act.sigreturn = .sigsend s) (by simp)]
      exact counted
  exact both.2

/-- **Signals are a set with lowest-first delivery.** After every history of a process that starts without pending
signals and outside of a handler: `pending` is not negative and its bits are the signals sent since their last
delivery; the next return from a system call delivers exactly if there is such a signal and no handler is running,
and then it is the smallest one and no other bit changes; no signal was delivered more often than it was sent; and
between two deliveries there is a `sigreturn`. -/
theorem signals_are_a_set (run : Run act p0 tr p) (empty : p0.pending = 0) (idle : p0.insignal = 0) :
    (0 ≤ p.pending.toInt ∧ p.pending.toInt < 2 ^ 31) ∧
    (∀ s, p.pending.getLsbD s = true ↔ Outstanding tr s) ∧
    (∀ frame kalloc p', act p (.ret frame kalloc) = some p' →
      ((delivered (p, .ret frame kalloc)).isSome ↔ (∃ s, Outstanding tr s) ∧ ¬ Handling tr) ∧
      (∀ k, delivered (p, .ret frame kalloc) = some k →
        (Outstanding tr k ∧ ∀ s, Outstanding tr s → k ≤ s) ∧ p'.tf.eip = p.signal_handlers k ∧
        ∀ s, p'.pending.getLsbD s = true ↔ p.pending.getLsbD s = true ∧ s ≠ k) ∧
      (delivered (p, .ret frame kalloc) = none → p' = { p with tf := frame })) ∧
    (∀ s : Nat, tr.countP (fun q => delivered q = some s) ≤ tr.countP fun q => q.2 = .sigsend s) ∧
    ∀ pre mid post q q', tr = pre ++ q :: mid ++ q' :: post → (delivered q).isSome → (delivered q').isSome →
      ∃ r ∈ mid, r.2 = .sigreturn := by
  have explained := run_explained run empty idle
  refine ⟨?_, explained.set, ?_, fun s => ?_, ?_⟩
  · have bound := BitVec.toInt_lt (x := p.pending)
    rw [toInt_of_clear explained.clear] at bound ⊢
    omega
  · intro frame kalloc p' taken
    simp only [act] at taken
    split_ifs at taken with syscall
    cases taken
    by_cases delivers : { p with tf := frame }.Delivers
    · obtain ⟨k, isK, lowest, inside, outstanding, least⟩ := explained.delivered_eq kalloc delivers
      obtain ⟨pending, _, eip⟩ := handleSignals_fields kalloc delivers
      refine ⟨?_, fun j isJ => ?_, fun nothing => absurd (isK.symm.trans nothing) (by simp)⟩
      · rw [isK]
        simpa using (explained.delivers_iff syscall).1 delivers
      · cases isK.symm.trans isJ
        have number : (getLowestSetBit p.pending).toNat = k := by rw [lowest, Int.toNat_natCast]
        refine ⟨⟨outstanding, least⟩, eip.trans (congrArg p.signal_handlers number), fun s => ?_⟩
        rw [pending]
        dsimp only
        rw [number, getLsbD_clearBit inside]
    · have none : delivered (p, .ret frame kalloc) = none := if_neg delivers
      refine ⟨?_, fun k isK => absurd (none.symm.trans isK) (by simp), fun _ => if_neg delivers⟩
      rw [none, ← explained.delivers_iff syscall]
      simpa using delivers
  · have counted := run_counted run empty idle s
    omega
  · rintro pre mid post q ⟨t, a⟩ rfl first second
    obtain ⟨before, t', taken, _⟩ := (by simpa using run : Run act p0 ((pre ++ q :: mid) ++ (t, a) :: post) p).around
    have explained' := run_explained before empty idle
    by_contra noReturn
    have handling : Handling (pre ++ q :: mid) :=
      ⟨pre, q, mid, rfl, first, fun r mem isReturn => noReturn ⟨r, mem, isReturn⟩⟩
    cases a with
    | sigsend signum => simp [delivered] at second
    | sigreturn => simp [delivered] at second
    | ret frame kalloc =>
      by_cases delivers : { t with tf := frame }.Delivers
      · simp only [act] at taken
        split_ifs at taken with syscall
        exact ((explained'.delivers_iff syscall).1 delivers).2 handling
      · have none : delivered (t, .ret frame kalloc) = none := if_neg delivers
        rw [none] at second
        cases second

end

/-- The frame of a system call. -/
def syscallFrame : Trapframe := { (default : Trapframe) with trapno := T_SYSCALL }

/-- Two signals arrive and a system call returns: the lower one is delivered, the other stays. -/
def sendTwo : List Act := [.sigsend 5, .sigsend 3, .ret syscallFrame true]

/-- Signal 5 is outstanding, signal 3 is not. -/
theorem signals_are_a_set_sendTwo : ∃ p, Run act Proc.zero (record act Proc.zero sendTwo) p ∧ p.insignal = 1 ∧
    Outstanding (record act Proc.zero sendTwo) 5 ∧ ¬ Outstanding (record act Proc.zero sendTwo) 3 := by
  have final : (exec act Proc.zero sendTwo).map (fun p => (p.pending, p.insignal)) = some (32, 1) := by decide +kernel
  obtain ⟨p, done, fields⟩ := Option.map_eq_some_iff.1 final
  obtain ⟨pending, insignal⟩ := Prod.mk.inj fields
  obtain ⟨_, bits, _⟩ := signals_are_a_set (run_of_exec done) rfl rfl
  refine ⟨p, run_of_exec done, insignal, ?_, ?_⟩
  · rw [← bits, pending]
    decide
  · rw [← bits, pending]
    decide

end Xv6.Signal
