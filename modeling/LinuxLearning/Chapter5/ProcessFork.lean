/-
The constructor of the process pool (CGI/process_pool.cpp): the loop that is
commented out, and the one in its place.  The old loop closes the parent's end
of each pair in the round that makes it; the new one has moved that behind the
loop, where it happens once at most, for the memory behind `m_sub_process`.
-/
import LinuxLearning.Chapter5.ProcessPool
import LinuxLearning.Lib.DescriptorTable

namespace LinuxLearning.Chapter5.ProcessPool

/-- What a descriptor of a process refers to: one of the ends `m_pipefd[0]` and
`m_pipefd[1]` of a pair, or something that was open before. -/
inductive End where
  | first (i : Nat)
  | second (i : Nat)
  | other (k : Nat)
deriving Repr, DecidableEq

/-- A process in the constructor: its descriptors, the memory from
`m_sub_process` on, and `m_idx`. -/
structure Image where
  table : DescriptorTable End
  mSubProcess : Nat → Process
  mIdx : Int

namespace Image

/-- `new process[process_number]`. -/
def newProcess (n : Nat) (s : Image) : Image :=
  { s with
    mSubProcess := fun i =>
      if i < n then { s.mSubProcess i with mPid := -1 } else s.mSubProcess i }

/-- `socketpair` into `m_sub_process[i].m_pipefd`. -/
def socketpair (i : Nat) (s : Image) : Image :=
  let table := s.table.assign (.first i)
  { s with
    table := table.assign (.second i)
    mSubProcess := Function.update s.mSubProcess i
      { s.mSubProcess i with mPipefd := (s.table.lowest, table.lowest) } }

/-- One of the two processes behind `fork`, with what it has returned there. -/
def fork (i : Nat) (pid : Int) (s : Image) : Image :=
  { s with mSubProcess := Function.update s.mSubProcess i { s.mSubProcess i with mPid := pid } }

/-- The end of the round in the old loop, and whether it is a `break`. -/
def replaced (i : Nat) (s : Image) : Image × Bool :=
  if (s.mSubProcess i).mPid > 0 then
    ({ s with table := s.table.close (s.mSubProcess i).mPipefd.2 }, false)
  else ({ s with table := s.table.close (s.mSubProcess i).mPipefd.1, mIdx := i }, true)

/-- The end of the round in the new loop. -/
def rewritten (i : Nat) (s : Image) : Image × Bool :=
  if (s.mSubProcess i).mPid = 0 then
    ({ s with table := s.table.close (s.mSubProcess i).mPipefd.1, mIdx := i }, true)
  else (s, false)

/-- Behind the new loop, which has been left with the counter `i`. -/
def afterLoop (i : Nat) (s : Image) : Image :=
  if (s.mSubProcess i).mPid > 0 then
    { s with table := s.table.close (s.mSubProcess i).mPipefd.2 }
  else s

/-- All processes that come out of the loop from the counter `i` on, each with
its counter there; `pids` are the process numbers that `fork` returns in the
parent. -/
def spawn (body : Nat → Image → Image × Bool) (pids : Nat → Int) :
    Nat → Nat → Image → List (Image × Nat)
  | 0, i, s => [(s, i)]
  | left + 1, i, s =>
      let go (s : Image) :=
        if (body i s).2 then [((body i s).1, i)] else spawn body pids left (i + 1) (body i s).1
      go ((s.socketpair i).fork i 0) ++ go ((s.socketpair i).fork i (pids i))

/-- The processes behind the old constructor. -/
def replacedConstructor (pids : Nat → Int) (n : Nat) (s : Image) : List Image :=
  (spawn replaced pids n 0 (s.newProcess n)).map fun process => process.1

/-- The processes behind the new constructor. -/
def rewrittenConstructor (pids : Nat → Int) (n : Nat) (s : Image) : List Image :=
  (spawn rewritten pids n 0 (s.newProcess n)).map fun process => process.1.afterLoop process.2

/-- The same is open in two processes, and they have the same `m_idx`. -/
structure Same (s t : Image) : Prop where
  opens : ∀ e, s.table.Open e ↔ t.table.Open e
  mIdx : s.mIdx = t.mIdx

/-- The new constructor leaves the processes as the old one does: the children
in order, with the right ends closed and their index, and last the parent. -/
structure KeepsMeaning (pids : Nat → Int) (n : Nat) (s : Image) : Prop where
  same : List.Forall₂ Same (rewrittenConstructor pids n s) (replacedConstructor pids n s)
  child : ∀ i < n, ∀ t, (rewrittenConstructor pids n s)[i]? = some t →
    ¬ t.table.Open (.first i) ∧ t.mIdx = i
  parent : ∀ t, (rewrittenConstructor pids n s)[n]? = some t →
    ∀ i < n, ¬ t.table.Open (.second i) ∧ t.table.Open (.first i)

/-- Before the constructor no pair is open. -/
def Fresh (s : Image) : Prop :=
  ∀ i, ¬ s.table.Open (.first i) ∧ ¬ s.table.Open (.second i)

/-- The parent behind the new loop. -/
def parentLoop (pids : Nat → Int) : Nat → Nat → Image → Image
  | 0, _, s => s
  | left + 1, i, s => parentLoop pids left (i + 1) ((s.socketpair i).fork i (pids i))

section Loop

variable {s : Image} {pids : Nat → Int} {n left i : Nat}

theorem fork_mPid (pid : Int) : ((s.fork i pid).mSubProcess i).mPid = pid := by
  rw [fork]
  dsimp only
  rw [Function.update_self]

theorem fork_mPipefd (pid : Int) :
    (((s.socketpair i).fork i pid).mSubProcess i).mPipefd =
      ((s.table.lowest : Int), ((s.table.assign (.first i)).lowest : Int)) := by
  simp [fork, socketpair]

theorem mSubProcess_of_ne {k : Nat} (pid : Int) (hk : k ≠ i) :
    ((s.socketpair i).fork i pid).mSubProcess k = s.mSubProcess k := by
  simp [fork, socketpair, Function.update_of_ne hk]

/-- A child leaves the new loop in its round, the parent goes on. -/
theorem spawn_rewritten (hpids : ∀ i, 0 < pids i) :
    ∃ children : List (Image × Nat), children.length = left ∧
      spawn rewritten pids left i s = children ++ [(parentLoop pids left i s, i + left)] := by
  induction left generalizing i s with
  | zero => exact ⟨[], rfl, rfl⟩
  | succ left ih =>
      obtain ⟨children, hlength, hrest⟩ := ih (i := i + 1)
        (s := (s.socketpair i).fork i (pids i))
      have hchild : ∀ t : Image, (rewritten i (t.fork i 0)).2 = true := fun t => by
        rw [rewritten, if_pos (fork_mPid 0)]
      have hparent : ∀ t : Image, rewritten i (t.fork i (pids i)) = (t.fork i (pids i), false) :=
        fun t => by
          rw [rewritten, if_neg (by rw [fork_mPid]; exact Int.ne_of_gt (hpids i))]
      refine ⟨((rewritten i ((s.socketpair i).fork i 0)).1, i) :: children,
        by rw [List.length_cons, hlength], ?_⟩
      rw [spawn]
      dsimp only
      rw [hchild, hparent, if_pos rfl, if_neg Bool.false_ne_true, hrest, parentLoop,
        Nat.add_right_comm i 1 left, Nat.add_assoc]
      rfl

/-- Nothing is closed in the parent. -/
theorem open_parentLoop {e : End} (he : s.table.Open e) :
    (parentLoop pids left i s).table.Open e := by
  induction left generalizing i s with
  | zero => exact he
  | succ left ih => exact ih he.assign.assign

theorem second_parentLoop {j : Nat} (hlow : i ≤ j) (hhigh : j < i + left) :
    (parentLoop pids left i s).table.Open (.second j) := by
  induction left generalizing i s with
  | zero => omega
  | succ left ih =>
      rw [parentLoop]
      rcases Nat.lt_or_eq_of_le hlow with hlt | rfl
      · exact ih hlt (by omega)
      · exact open_parentLoop DescriptorTable.open_assign

/-- The parent behind the constructor is the last process. -/
theorem rewrittenConstructor_parent (hpids : ∀ i, 0 < pids i) :
    (rewrittenConstructor pids n s)[n]? =
      some ((parentLoop pids n 0 (s.newProcess n)).afterLoop n) := by
  obtain ⟨children, hlength, hspawn⟩ : ∃ children : List (Image × Nat), children.length = n ∧
      spawn rewritten pids n 0 (s.newProcess n) =
        children ++ [(parentLoop pids n 0 (s.newProcess n), 0 + n)] := spawn_rewritten hpids
  rw [rewrittenConstructor, hspawn, Nat.zero_add, List.map_append, List.getElem?_append_right
    (by rw [List.length_map, hlength]), List.length_map, hlength, Nat.sub_self]
  rfl

/-- Two pairs are too many. -/
theorem not_keepsMeaning (hpids : ∀ i, 0 < pids i) (hn : 2 ≤ n) :
    ¬ KeepsMeaning pids n s := by
  intro h
  have hparent := h.parent _ (rewrittenConstructor_parent hpids)
  have hzero : (parentLoop pids n 0 (s.newProcess n)).table.Open (.second 0) :=
    second_parentLoop (Nat.le_refl 0) (by omega)
  have hone : (parentLoop pids n 0 (s.newProcess n)).table.Open (.second 1) :=
    second_parentLoop (Nat.zero_le 1) (by omega)
  have hne : End.second 0 ≠ End.second 1 := by simp
  unfold afterLoop at hparent
  split_ifs at hparent
  · rcases DescriptorTable.open_close hzero hone hne with hopen | hopen
    · exact (hparent 0 (by omega)).1 hopen
    · exact (hparent 1 (by omega)).1 hopen
  · exact (hparent 0 (by omega)).1 hzero

/-- The child of the only round, and the parent. -/
theorem spawn_one {body : Nat → Image → Image × Bool}
    (hchild : (body 0 ((s.socketpair 0).fork 0 0)).2 = true)
    (hparent : (body 0 ((s.socketpair 0).fork 0 (pids 0))).2 = false) :
    spawn body pids 1 0 s = [((body 0 ((s.socketpair 0).fork 0 0)).1, 0),
      ((body 0 ((s.socketpair 0).fork 0 (pids 0))).1, 1)] := by
  simp [spawn, hchild, hparent]

/-- The two numbers of the first pair. -/
theorem pair_ne : (s.table.assign (.first i)).lowest ≠ s.table.lowest := by
  intro heq
  have hnone := DescriptorTable.at_lowest (t := s.table.assign (.first i))
  rw [heq, DescriptorTable.at_assign, if_pos rfl] at hnone
  cases hnone

theorem at_socketpair {fd : Nat} : (s.socketpair i).table.at? fd =
    if fd = (s.table.assign (.first i)).lowest then some (.second i)
    else if fd = s.table.lowest then some (.first i) else s.table.at? fd := by
  rw [socketpair]
  dsimp only
  rw [DescriptorTable.at_assign, DescriptorTable.at_assign]

theorem second_closed_iff (hfresh : s.Fresh) {g : Int} :
    ¬ ((s.socketpair i).table.close g).Open (.second i) ↔
      g = (s.table.assign (.first i)).lowest := by
  constructor
  · intro hclosed
    by_contra hne
    refine hclosed (DescriptorTable.open_iff.mpr ⟨(s.table.assign (.first i)).lowest, ?_⟩)
    rw [DescriptorTable.at_close, if_neg (Ne.symm hne), at_socketpair, if_pos rfl]
  · rintro rfl hopen
    obtain ⟨fd, hfd⟩ := DescriptorTable.open_iff.mp hopen
    rw [DescriptorTable.at_close, at_socketpair] at hfd
    split_ifs at hfd with hclosed hsecond
    · exact hclosed (congrArg _ hsecond)
    · cases hfd
    · exact (hfresh i).2 (.of_at hfd)

theorem first_closed (hfresh : s.Fresh) :
    ¬ ((s.socketpair i).table.close s.table.lowest).Open (.first i) := by
  intro hopen
  obtain ⟨fd, hfd⟩ := DescriptorTable.open_iff.mp hopen
  rw [DescriptorTable.at_close, at_socketpair] at hfd
  split_ifs at hfd with hclosed hsecond hfirst
  · cases hfd
  · exact hclosed (congrArg _ hfirst)
  · exact (hfresh i).1 (.of_at hfd)

theorem first_open {g : Int} (hg : g = (s.table.assign (.first i)).lowest) :
    ((s.socketpair i).table.close g).Open (.first i) := by
  subst hg
  refine DescriptorTable.open_iff.mpr ⟨s.table.lowest, ?_⟩
  have hne : (s.table.lowest : Int) ≠ (s.table.assign (.first i)).lowest :=
    fun heq => pair_ne (Int.ofNat.inj heq).symm
  rw [DescriptorTable.at_close, if_neg hne, at_socketpair, if_neg pair_ne.symm, if_pos rfl]

/-- In the only child the two loops do the same. -/
theorem replaced_child : replaced i ((s.socketpair i).fork i 0) =
    ({ (s.socketpair i).fork i 0 with
        table := (s.socketpair i).table.close s.table.lowest
        mIdx := i }, true) := by
  rw [replaced, if_neg (by rw [fork_mPid]; decide), fork_mPipefd]
  rfl

theorem rewritten_child : rewritten i ((s.socketpair i).fork i 0) =
    replaced i ((s.socketpair i).fork i 0) := by
  rw [rewritten, replaced, if_pos (fork_mPid 0), if_neg (by rw [fork_mPid]; decide)]

theorem replaced_parent {pid : Int} (hpid : 0 < pid) :
    replaced i ((s.socketpair i).fork i pid) =
      ({ (s.socketpair i).fork i pid with
          table := (s.socketpair i).table.close (s.table.assign (.first i)).lowest }, false) := by
  rw [replaced, if_pos (by rw [fork_mPid]; exact hpid), fork_mPipefd]
  rfl

theorem rewritten_parent {pid : Int} (hpid : 0 < pid) :
    rewritten i ((s.socketpair i).fork i pid) = ((s.socketpair i).fork i pid, false) := by
  rw [rewritten, if_neg (by rw [fork_mPid]; exact Int.ne_of_gt hpid)]

/-- The entry behind the array is not written to. -/
theorem behind_one : (((s.newProcess 1).socketpair 0).fork 0 (pids 0)).mSubProcess 1 =
    s.mSubProcess 1 :=
  mSubProcess_of_ne (pids 0) Nat.one_ne_zero

/-- The old constructor leaves a child and the parent. -/
theorem replacedConstructor_one (hpids : ∀ i, 0 < pids i) :
    replacedConstructor pids 1 s =
      [(replaced 0 (((s.newProcess 1).socketpair 0).fork 0 0)).1,
        (replaced 0 (((s.newProcess 1).socketpair 0).fork 0 (pids 0))).1] := by
  rw [replacedConstructor, spawn_one (by rw [replaced_child]) (by rw [replaced_parent (hpids 0)])]
  rfl

/-- When the memory behind the array reads as the parent's entry, the two
constructors leave the same processes. -/
theorem constructors_eq (hpids : ∀ i, 0 < pids i) (hpositive : 0 < (s.mSubProcess 1).mPid)
    (hend : (s.mSubProcess 1).mPipefd.2 = (s.table.assign (.first 0)).lowest) :
    rewrittenConstructor pids 1 s = replacedConstructor pids 1 s := by
  have hchild : ∀ t : Image, (t.mSubProcess 0).mPid = 0 → t.afterLoop 0 = t := fun t ht => by
    rw [afterLoop, if_neg (by rw [ht]; decide)]
  rw [rewrittenConstructor, replacedConstructor,
    spawn_one (by rw [rewritten_child, replaced_child]) (by rw [rewritten_parent (hpids 0)]),
    spawn_one (by rw [replaced_child]) (by rw [replaced_parent (hpids 0)]),
    rewritten_child, replaced_child, rewritten_parent (hpids 0), replaced_parent (hpids 0)]
  simp only [List.map_cons, List.map_nil]
  refine congrArg₂ List.cons (hchild _ (fork_mPid 0)) (congrArg (· :: []) ?_)
  rw [afterLoop, behind_one, if_pos hpositive, hend]
  rfl

/-- With one process the new constructor is right when the memory behind the
array reads as an entry with a positive `m_pid` and the parent's end. -/
theorem keepsMeaning_one (hfresh : s.Fresh) (hpids : ∀ i, 0 < pids i) :
    KeepsMeaning pids 1 s ↔ 0 < (s.mSubProcess 1).mPid ∧
      (s.mSubProcess 1).mPipefd.2 = (s.table.assign (.first 0)).lowest := by
  have hfresh' : (s.newProcess 1).Fresh := hfresh
  constructor
  · intro h
    have hclosed := (h.parent _ (rewrittenConstructor_parent hpids) 0 Nat.one_pos).1
    change ¬ ((((s.newProcess 1).socketpair 0).fork 0 (pids 0)).afterLoop 1).table.Open _ at hclosed
    rw [afterLoop, behind_one] at hclosed
    split_ifs at hclosed with hpositive
    · exact ⟨hpositive, (second_closed_iff hfresh').mp hclosed⟩
    · exact (hclosed DescriptorTable.open_assign).elim
  · rintro ⟨hpositive, hend⟩
    have hnew := constructors_eq hpids hpositive hend
    have hold := replacedConstructor_one (s := s) hpids
    rw [replaced_child, replaced_parent (hpids 0)] at hold
    refine ⟨?_, ?_, ?_⟩
    · rw [hnew]
      exact List.forall₂_same.mpr fun t _ => ⟨fun _ => Iff.rfl, rfl⟩
    · rintro i hi t ht
      obtain rfl : i = 0 := Nat.lt_one_iff.mp hi
      rw [hnew, hold] at ht
      obtain rfl := Option.some.inj ht
      exact ⟨first_closed hfresh', rfl⟩
    · rintro t ht i hi
      obtain rfl : i = 0 := Nat.lt_one_iff.mp hi
      rw [hnew, hold] at ht
      obtain rfl := Option.some.inj ht
      exact ⟨(second_closed_iff hfresh').mpr rfl, first_open rfl⟩

/-- The new constructor keeps the meaning of the old one for one process only,
and for that one only by accident. -/
theorem keepsMeaning_iff (hfresh : s.Fresh) (hpids : ∀ i, 0 < pids i) (hn : 0 < n) :
    KeepsMeaning pids n s ↔ n = 1 ∧ 0 < (s.mSubProcess 1).mPid ∧
      (s.mSubProcess 1).mPipefd.2 = (s.table.assign (.first 0)).lowest := by
  rcases Nat.lt_or_ge n 2 with hlt | hge
  · obtain rfl : n = 1 := by omega
    rw [keepsMeaning_one hfresh hpids, eq_self, true_and]
  · refine iff_of_false (not_keepsMeaning hpids hge) ?_
    rintro ⟨rfl, -⟩
    omega

/-- The process before the constructor: standard descriptors and `listenfd`,
and memory filled with zeros. -/
def standard : Image where
  table := ⟨[some (.other 0), some (.other 1), some (.other 2), some (.other 3)]⟩
  mSubProcess _ := ⟨0, 0, 0⟩
  mIdx := 0

/-- Two processes: the parent keeps its end of the first pair open. -/
theorem second_stays_open :
    ¬ ∀ (pids : Nat → Int) (n : Nat) (s : Image), s.Fresh → (∀ i, 0 < pids i) → 0 < n →
      KeepsMeaning pids n s := by
  intro h
  have hfresh : standard.Fresh := fun i => by simp [standard, DescriptorTable.Open]
  have hmeaning := h (fun i => i + 1) 2 standard hfresh (fun i => by omega) (by decide)
  have hclosed := (hmeaning.parent _ rfl 0 (by decide)).1
  exact hclosed (by decide)

/-- Memory that happens to be right. -/
theorem keepsMeaning_iff_one :
    KeepsMeaning (fun _ => 10) 1 { standard with mSubProcess := fun _ => ⟨7, 4, 5⟩ } := by
  refine (keepsMeaning_iff ?_ (fun _ => by decide) (by decide)).mpr ⟨rfl, by decide, rfl⟩
  exact fun i => by simp [standard, DescriptorTable.Open]

end Loop

end Image

end LinuxLearning.Chapter5.ProcessPool
