/-
The parent of the process pool (CGI/process_pool.cpp) and how it deals out
connections.  Its counter and the children in the order of their indices from
there on are the ring of a round robin.
-/
import LinuxLearning.Lib.RoundRobin
import Mathlib.Data.Nat.Find

namespace LinuxLearning.Chapter5.ProcessPool

/-- `process`: a child and the two ends of the pipe to it. -/
structure Process where
  mPid : Int
  mPipefd : Int × Int
deriving Repr, DecidableEq

/-- What `run_parent` works on: `m_sub_process` and the memory behind it,
`m_process_number`, which the constructor asserts to be positive, `m_stop` and
`sub_process_counter`. -/
structure Parent where
  mSubProcess : Nat → Process
  mProcessNumber : Nat
  mStop : Bool
  subProcessCounter : Nat
  pos : 0 < mProcessNumber

/-- What the parent does with a new connection: it stops, or it writes an
integer to `m_pipefd[0]` of a child. -/
inductive Dispatch where
  | stopped
  | sent (child : Nat) (pipefd : Int)
deriving Repr, DecidableEq

namespace Parent

/-- The child at an index has not been reaped. -/
def live (p : Parent) (i : Nat) : Bool :=
  (p.mSubProcess i).mPid != -1

/-- The `do` loop from the index `j` on, for some number of rounds. -/
def search (p : Parent) : Nat → Nat → Option Nat
  | 0, _ => none
  | fuel + 1, j =>
      if p.live j then some j
      else
        let next := (j + 1) % p.mProcessNumber
        if next ≠ p.subProcessCounter then p.search fuel next else some next

/-- The branch of `run_parent` for `m_listenfd`. -/
def dispatch (p : Parent) : Option (Parent × Dispatch) :=
  match p.search p.mProcessNumber p.subProcessCounter with
  | none => none
  | some j =>
      if p.live j then
        some ({ p with subProcessCounter := (j + 1) % p.mProcessNumber },
          .sent j (p.mSubProcess j).mPipefd.1)
      else some ({ p with mStop := true }, .stopped)

/-- The indices of the children that have not been reaped. -/
def liveChildren (p : Parent) : List Nat :=
  (List.range p.mProcessNumber).filter p.live

/-- The same children live, and the counter is the same. -/
structure SameLive (p q : Parent) : Prop where
  number : q.mProcessNumber = p.mProcessNumber
  counter : q.subProcessCounter = p.subProcessCounter
  live : ∀ i < p.mProcessNumber, q.live i = p.live i

/-- Dispatches in a row, to the children of a list.  Between two of them
anything may happen that kills no child. -/
inductive Dispatches : Parent → List Nat → Parent → Prop
  | nil (p : Parent) : Dispatches p [] p
  | cons {p next q r : Parent} {child : Nat} {children : List Nat} {pipefd : Int}
      (hdispatch : p.dispatch = some (next, .sent child pipefd)) (hsame : next.SameLive q)
      (hrest : Dispatches q children r) : Dispatches p (child :: children) r

section Search

variable {p : Parent}

/-- A cyclic distance below the length does not lead back. -/
theorem add_mod_ne {n c e : Nat} (hc : c < n) (hpos : 0 < e) (he : e < n) : (c + e) % n ≠ c := by
  rcases Nat.lt_or_ge (c + e) n with hlt | hge
  · rw [Nat.mod_eq_of_lt hlt]
    omega
  · rw [Nat.mod_eq_sub_mod hge, Nat.mod_eq_of_lt (by omega)]
    omega

/-- The loop passes over dead children. -/
theorem search_pass (hcounter : p.subProcessCounter < p.mProcessNumber) {d : Nat} (fuel k : Nat)
    (hdead : ∀ e < k, p.live ((p.subProcessCounter + (d + e)) % p.mProcessNumber) = false)
    (hk : d + k < p.mProcessNumber) :
    p.search (fuel + k) ((p.subProcessCounter + d) % p.mProcessNumber) =
      p.search fuel ((p.subProcessCounter + (d + k)) % p.mProcessNumber) := by
  induction k generalizing d with
  | zero => rfl
  | succ k ih =>
      have hhere : p.live ((p.subProcessCounter + d) % p.mProcessNumber) = false :=
        hdead 0 (Nat.succ_pos k)
      have hnext : ((p.subProcessCounter + d) % p.mProcessNumber + 1) % p.mProcessNumber =
          (p.subProcessCounter + (d + 1)) % p.mProcessNumber := by
        rw [Nat.mod_add_mod, Nat.add_assoc]
      have hne := add_mod_ne hcounter (Nat.succ_pos d) (by omega : d + 1 < p.mProcessNumber)
      have hrest := ih (d := d + 1)
        (fun e he => by
          rw [Nat.add_right_comm d 1 e]
          exact hdead (e + 1) (Nat.succ_lt_succ he))
        (by omega)
      rw [← Nat.add_assoc fuel, search, hhere, if_neg Bool.false_ne_true, hnext]
      dsimp only
      rw [if_pos hne, hrest, Nat.add_right_comm d 1 k, Nat.add_assoc d k 1]

/-- The loop ends at the first child that lives. -/
theorem search_live (hcounter : p.subProcessCounter < p.mProcessNumber) {d : Nat}
    (hd : d < p.mProcessNumber)
    (hlive : p.live ((p.subProcessCounter + d) % p.mProcessNumber) = true)
    (hdead : ∀ e < d, p.live ((p.subProcessCounter + e) % p.mProcessNumber) = false) :
    p.search p.mProcessNumber p.subProcessCounter =
      some ((p.subProcessCounter + d) % p.mProcessNumber) := by
  have hpass := search_pass (d := 0) hcounter (p.mProcessNumber - d) d
    (fun e he => by rw [Nat.zero_add]; exact hdead e he) (by omega)
  rw [Nat.sub_add_cancel hd.le, Nat.zero_add, Nat.add_zero, Nat.mod_eq_of_lt hcounter] at hpass
  obtain ⟨fuel, hfuel⟩ := Nat.exists_eq_add_of_lt (Nat.sub_pos_of_lt hd)
  rw [hpass, hfuel, Nat.zero_add, search, if_pos hlive]

/-- The loop ends where it began when nobody lives. -/
theorem search_dead (hcounter : p.subProcessCounter < p.mProcessNumber)
    (hdead : ∀ i < p.mProcessNumber, p.live i = false) :
    p.search p.mProcessNumber p.subProcessCounter = some p.subProcessCounter := by
  obtain ⟨n, hn⟩ := Nat.exists_eq_add_of_lt p.pos
  rw [Nat.zero_add] at hn
  have hmod : ∀ i, i % p.mProcessNumber < p.mProcessNumber := fun i => Nat.mod_lt i p.pos
  have hpass := search_pass (d := 0) hcounter 1 n (fun e _ => hdead _ (hmod _)) (by omega)
  rw [Nat.add_comm 1 n, ← hn, Nat.zero_add, Nat.add_zero, Nat.mod_eq_of_lt hcounter] at hpass
  have hback : ((p.subProcessCounter + n) % p.mProcessNumber + 1) % p.mProcessNumber =
      p.subProcessCounter := by
    rw [Nat.mod_add_mod, Nat.add_assoc, ← hn, Nat.add_mod_right, Nat.mod_eq_of_lt hcounter]
  rw [hpass, search, hdead _ (hmod _), if_neg Bool.false_ne_true, hback]
  dsimp only
  rw [if_neg (not_not.mpr rfl)]

/-- Every child is at some distance from the counter. -/
theorem exists_distance (p : Parent) {i : Nat} (hi : i < p.mProcessNumber) :
    ∃ d < p.mProcessNumber, (p.subProcessCounter + d) % p.mProcessNumber = i := by
  have hmem : i ∈ RoundRobin.cyclic p.mProcessNumber p.subProcessCounter :=
    RoundRobin.mem_cyclic.mpr hi
  obtain ⟨d, hd, rfl⟩ := List.mem_iff_getElem.mp hmem
  refine ⟨d, by rwa [RoundRobin.length_cyclic] at hd, ?_⟩
  rw [RoundRobin.getElem_cyclic]

/-- The first child that lives, in cyclic order. -/
theorem exists_first {i : Nat} (hi : i < p.mProcessNumber) (hlive : p.live i = true) :
    ∃ d < p.mProcessNumber, p.live ((p.subProcessCounter + d) % p.mProcessNumber) = true ∧
      ∀ e < d, p.live ((p.subProcessCounter + e) % p.mProcessNumber) = false := by
  obtain ⟨d, hd, rfl⟩ := p.exists_distance hi
  have hex : ∃ d, p.live ((p.subProcessCounter + d) % p.mProcessNumber) = true := ⟨d, hlive⟩
  refine ⟨Nat.find hex, (Nat.find_min' hex hlive).trans_lt hd, Nat.find_spec hex, ?_⟩
  exact fun e he => Bool.eq_false_iff.mpr (Nat.find_min hex he)

end Search

section Dispatch

variable {p next q : Parent}

theorem dispatch_live (hcounter : p.subProcessCounter < p.mProcessNumber) {d : Nat}
    (hd : d < p.mProcessNumber)
    (hlive : p.live ((p.subProcessCounter + d) % p.mProcessNumber) = true)
    (hdead : ∀ e < d, p.live ((p.subProcessCounter + e) % p.mProcessNumber) = false) :
    p.dispatch = some
      ({ p with
          subProcessCounter :=
            ((p.subProcessCounter + d) % p.mProcessNumber + 1) % p.mProcessNumber },
        .sent ((p.subProcessCounter + d) % p.mProcessNumber)
          (p.mSubProcess ((p.subProcessCounter + d) % p.mProcessNumber)).mPipefd.1) := by
  rw [dispatch, search_live hcounter hd hlive hdead]
  dsimp only
  rw [if_pos hlive]

theorem dispatch_dead (hcounter : p.subProcessCounter < p.mProcessNumber)
    (hdead : ∀ i < p.mProcessNumber, p.live i = false) :
    p.dispatch = some ({ p with mStop := true }, .stopped) := by
  rw [dispatch, search_dead hcounter hdead]
  dsimp only
  rw [hdead _ hcounter, if_neg Bool.false_ne_true]

/-- What a dispatch can do. -/
theorem dispatch_cases (hcounter : p.subProcessCounter < p.mProcessNumber) {sent : Dispatch}
    (h : p.dispatch = some (next, sent)) :
    (next = { p with mStop := true } ∧ sent = .stopped) ∨
      ∃ d < p.mProcessNumber, p.live ((p.subProcessCounter + d) % p.mProcessNumber) = true ∧
        (∀ e < d, p.live ((p.subProcessCounter + e) % p.mProcessNumber) = false) ∧
        next = { p with
          subProcessCounter :=
            ((p.subProcessCounter + d) % p.mProcessNumber + 1) % p.mProcessNumber } ∧
        sent = .sent ((p.subProcessCounter + d) % p.mProcessNumber)
          (p.mSubProcess ((p.subProcessCounter + d) % p.mProcessNumber)).mPipefd.1 := by
  by_cases hlive : ∃ i < p.mProcessNumber, p.live i = true
  · obtain ⟨i, hi, hlive⟩ := hlive
    obtain ⟨d, hd, hlive, hdead⟩ := exists_first hi hlive
    rw [dispatch_live hcounter hd hlive hdead] at h
    obtain ⟨rfl, rfl⟩ := Prod.mk.inj (Option.some.inj h)
    exact Or.inr ⟨d, hd, hlive, hdead, rfl, rfl⟩
  · have hdead : ∀ i < p.mProcessNumber, p.live i = false :=
      fun i hi => Bool.eq_false_iff.mpr fun hi' => hlive ⟨i, hi, hi'⟩
    rw [dispatch_dead hcounter hdead] at h
    obtain ⟨rfl, rfl⟩ := Prod.mk.inj (Option.some.inj h)
    exact Or.inl ⟨rfl, rfl⟩

theorem dispatch_counter (hcounter : p.subProcessCounter < p.mProcessNumber) {sent : Dispatch}
    (h : p.dispatch = some (next, sent)) : next.subProcessCounter < next.mProcessNumber := by
  rcases dispatch_cases hcounter h with ⟨rfl, -⟩ | ⟨d, -, -, -, rfl, -⟩
  · exact hcounter
  · exact Nat.mod_lt _ p.pos

/-- Dispatches are the rounds of a round robin. -/
theorem Dispatches.run {alive : Nat → Bool} {children : List Nat} (h : Dispatches p children q)
    (hcounter : p.subProcessCounter < p.mProcessNumber)
    (halive : ∀ i < p.mProcessNumber, p.live i = alive i) :
    RoundRobin.Run alive (RoundRobin.cyclic p.mProcessNumber p.subProcessCounter) children
      (RoundRobin.cyclic q.mProcessNumber q.subProcessCounter) := by
  induction h with
  | nil p => exact .nil _
  | @cons p next q r child children pipefd hdispatch hsame _ ih =>
      have hmod : ∀ i, i % p.mProcessNumber < p.mProcessNumber := fun i => Nat.mod_lt i p.pos
      have hnext := dispatch_counter hcounter hdispatch
      rcases dispatch_cases hcounter hdispatch with ⟨-, hsent⟩ | ⟨d, hd, hlive, hdead, rfl, hsent⟩
      · cases hsent
      · obtain ⟨rfl, rfl⟩ := Dispatch.sent.inj hsent
        rw [halive _ (hmod _)] at hlive
        have hserves := RoundRobin.serves_cyclic hd hlive fun e he => by
          rw [← halive _ (hmod _)]
          exact hdead e he
        refine .cons hserves ?_
        have hrest := ih (by rw [hsame.counter, hsame.number]; exact hnext) fun i hi => by
          rw [hsame.number] at hi
          exact (hsame.live i hi).trans (halive i hi)
        rwa [hsame.counter, hsame.number] at hrest

/-- The search ends; it finds the first child that lives at or after the
counter, or the parent stops; the counter stays in its range; and as many
dispatches in a row as there are children that live go to each of them once. -/
theorem dispatch_roundRobin (p : Parent) (hcounter : p.subProcessCounter < p.mProcessNumber) :
    (∃ j, p.search p.mProcessNumber p.subProcessCounter = some j) ∧
    ((∃ i < p.mProcessNumber, p.live i = true) →
      ∃ d < p.mProcessNumber, p.live ((p.subProcessCounter + d) % p.mProcessNumber) = true ∧
        (∀ e < d, p.live ((p.subProcessCounter + e) % p.mProcessNumber) = false) ∧
        p.dispatch = some
          ({ p with
              subProcessCounter :=
                ((p.subProcessCounter + d) % p.mProcessNumber + 1) % p.mProcessNumber },
            .sent ((p.subProcessCounter + d) % p.mProcessNumber)
              (p.mSubProcess ((p.subProcessCounter + d) % p.mProcessNumber)).mPipefd.1)) ∧
    ((∀ i < p.mProcessNumber, p.live i = false) →
      p.dispatch = some ({ p with mStop := true }, .stopped)) ∧
    (∀ next sent, p.dispatch = some (next, sent) →
      next.subProcessCounter < next.mProcessNumber) ∧
    (∀ children q, Dispatches p children q → ∀ before window later,
      children = before ++ window ++ later → window.length = p.liveChildren.length →
      window.Nodup ∧ ∀ i, i ∈ window ↔ i < p.mProcessNumber ∧ p.live i = true) := by
  refine ⟨?_, ?_, dispatch_dead hcounter, fun _ _ => dispatch_counter hcounter, ?_⟩
  · by_cases hlive : ∃ i < p.mProcessNumber, p.live i = true
    · obtain ⟨i, hi, hlive⟩ := hlive
      obtain ⟨d, hd, hlive, hdead⟩ := exists_first hi hlive
      exact ⟨_, search_live hcounter hd hlive hdead⟩
    · refine ⟨_, search_dead hcounter fun i hi => Bool.eq_false_iff.mpr fun hi' => ?_⟩
      exact hlive ⟨i, hi, hi'⟩
  · rintro ⟨i, hi, hlive⟩
    obtain ⟨d, hd, hlive, hdead⟩ := exists_first hi hlive
    exact ⟨d, hd, hlive, hdead, dispatch_live hcounter hd hlive hdead⟩
  · intro children q h before window later hchildren hlength
    have hrun := h.run hcounter fun _ _ => rfl
    have hperm : ((RoundRobin.cyclic p.mProcessNumber p.subProcessCounter).filter p.live).length =
        p.liveChildren.length :=
      ((List.rotate_perm _ _).filter _).length_eq
    obtain ⟨hnodup, hmem⟩ := hrun.fair hchildren (RoundRobin.cyclic_nodup _ _)
      (hlength.trans hperm.symm)
    refine ⟨hnodup, fun i => ?_⟩
    rw [hmem, RoundRobin.mem_cyclic]

/-- Three children, the one in the middle dead, and the counter there. -/
def threeChildren : Parent where
  mSubProcess i := if i = 0 then ⟨10, 5, 6⟩ else if i = 2 then ⟨12, 9, 10⟩ else ⟨-1, 7, 8⟩
  mProcessNumber := 3
  mStop := false
  subProcessCounter := 1
  pos := by decide

/-- Two dispatches, to the two children that live. -/
theorem dispatch_roundRobin_three :
    [2, 0].Nodup ∧ ∀ i, i ∈ [2, 0] ↔ i < 3 ∧ threeChildren.live i = true := by
  obtain ⟨-, -, -, -, hfair⟩ := dispatch_roundRobin threeChildren (by decide)
  have hsame : ∀ p : Parent, p.SameLive p := fun p => ⟨rfl, rfl, fun _ _ => rfl⟩
  have hdispatches : Dispatches threeChildren [2, 0] _ :=
    .cons rfl (hsame _) (.cons rfl (hsame _) (.nil _))
  exact hfair [2, 0] _ hdispatches [] [2, 0] [] rfl rfl

end Dispatch

end Parent

end LinuxLearning.Chapter5.ProcessPool
