import OS2021.Core.FileCalls
import OS2021.Core.UvmCopy

/-! `fork` when memory is short.

`alloc_proc` and `pgdir_init` can find no page, and `fork` undoes what it has done. The
copy of the pages has no such way out: `uvm_copy` tests neither what `kalloc` returns nor
what `uvm_map` does. So `fork` is all or nothing if memory ends before the copy begins, or
lasts until it is done. -/
namespace OS2021.Core
open Fs Lib Function
open Common (strncpy)

variable {env : Env} {k k' k1 : Kernel} {p q np : ProcId} {pages r d : Nat} {m m' : Memory} {rest : List Nat}

/-! ### A new process -/

/-- Everything but one process and memory is the same. -/
structure Besides (np : ProcId) (k k' : Kernel) : Prop where
  proc : ∀ q, q ≠ np → k'.proc q = k.proc q
  ftable : k'.ftable = k.ftable
  vol : k'.vol = k.vol

namespace Besides

theorem trans (h : Besides np k k1) (h' : Besides np k1 k') : Besides np k k' :=
  ⟨fun q hq => (h'.proc q hq).trans (h.proc q hq), h'.ftable.trans h.ftable, h'.vol.trans h.vol⟩

theorem setProc (np : ProcId) (k : Kernel) (f : Proc → Proc) : Besides np k (k.setProc np f) :=
  ⟨fun _ hq => proc_setProc_of_ne hq, rfl, rfl⟩

theorem setMem (np : ProcId) (k : Kernel) (mem : Memory) : Besides np k {k with mem} := ⟨fun _ _ => rfl, rfl, rfl⟩

/-- The process is `UNUSED` again. -/
theorem state (h : Besides np k k') (hbefore : (k.proc np).state = .unused) (hafter : (k'.proc np).state = .unused)
    (q : ProcId) : (k'.proc q).state = (k.proc q).state := by
  by_cases hq : q = np
  · rw [hq, hbefore, hafter]
  · rw [h.proc q hq]

end Besides

/-- What a call of `fork` or `alloc_proc` that fails leaves. -/
structure Unchanged (k k' : Kernel) : Prop where
  state : ∀ q, (k'.proc q).state = (k.proc q).state
  ftable : k'.ftable = k.ftable
  vol : k'.vol = k.vol

theorem allocPcbSimple_place {t : ContainerTree} {this : Nat} {s : Containers}
    (h : (allocPcbSimple t this s).1 = some np) : np.1 = this := by
  unfold allocPcbSimple at h
  split at h
  · cases h
    rfl
  · cases h

theorem allocPcbSimple_full {t : ContainerTree} {this : Nat} {s : Containers} (h : (allocPcbSimple t this s).1 = none)
    (i : Fin nproc) : (s.proc (this, i)).state ≠ .unused := by
  unfold allocPcbSimple at h
  split at h
  · cases h
  case h_2 hfind => exact fun hunused => List.find?_eq_none.mp hfind i (List.mem_finRange i) (decide_eq_true hunused)

theorem allocPcb_run (env : Env) (this : Nat) (k : Kernel) :
    (allocPcb env this).run k = .ok none k ∧ (∀ i, (k.proc (this, i)).state ≠ .unused) ∨
      ∃ np k', (allocPcb env this).run k = .ok (some np) k' ∧ np.1 = this ∧ (k.proc np).state = .unused ∧
        Besides np k k' ∧ k'.mem = k.mem := by
  have hrun : (allocPcb env this).run k = .ok (allocPcbSimple env.tree this k.procs).1
      {k with procs := (allocPcbSimple env.tree this k.procs).2} := rfl
  rcases allocPcbSimple_cases env.tree this k.procs with ⟨hnone, hsame⟩ | ⟨np, hnp, hunused, hothers, -⟩
  · rw [hnone, hsame] at hrun
    exact Or.inl ⟨hrun, allocPcbSimple_full hnone⟩
  · rw [hnp] at hrun
    exact Or.inr ⟨np, _, hrun, allocPcbSimple_place hnp, hunused, ⟨hothers, rfl, rfl⟩, rfl⟩

/-- `alloc_proc` has taken the slot `np`, and the page `stp` for a stack. -/
structure Embryo (env : Env) (this : Nat) (k : Kernel) (np : ProcId) (stp : Nat) (rest : List Nat)
    (k1 : Kernel) : Prop extends Besides np k k1 where
  run : (Kernel.allocProc env this).run k = .ok (some np) k1
  free : k.mem.free = stp :: rest
  place : np.1 = this
  unused : (k.proc np).state = .unused
  mem : k1.mem = k.mem.taken stp rest
  kstack : (k1.proc np).kstack = .ofNat stp + kstacksize

/-- `alloc_proc` finds no slot or no page for a stack, or takes one of each. -/
theorem allocProc_run (env : Env) (this : Nat) (k : Kernel) :
    (∃ k', (Kernel.allocProc env this).run k = .ok none k' ∧ Unchanged k k' ∧ k'.mem = k.mem ∧
        ((∀ i, (k.proc (this, i)).state ≠ .unused) ∨ k.mem.free = [])) ∨
      ∃ np stp rest k', Embryo env this k np stp rest k' := by
  rcases allocPcb_run env this k with ⟨hpcb, hfull⟩ | ⟨np, k1, hpcb, hplace, hunused, hbesides, hmem⟩
  · refine Or.inl ⟨k, ?_, ⟨fun _ => rfl, rfl, rfl⟩, rfl, Or.inl hfull⟩
    rw [Kernel.allocProc, bind_ok hpcb]
    rfl
  · have hembryo := hbesides.trans (.setProc np k1 fun q => {q with state := .embryo})
    have hmem' : (k1.setProc np fun q => {q with state := .embryo}).mem = k.mem := hmem
    have hrun : (Kernel.allocProc env this).run k = _ := (bind_ok hpcb).trans (bind_ok (modify_run _ _))
    generalize hk2 : (k1.setProc np fun q => {q with state := .embryo}) = k2 at hembryo hmem' hrun
    cases hfree : k.mem.free with
    | nil =>
      have halloc : (onMem kalloc).run k2 = .ok none k2 := onMem_run ((kalloc_run _).trans (by rw [hmem', hfree]))
      have hlast := hembryo.trans (.setProc np k2 fun q => {q with state := .unused})
      have hstate : ((k2.setProc np fun q => {q with state := .unused}).proc np).state = .unused := by
        rw [Kernel.proc, Kernel.setProc, proc_setProc_self]
      exact Or.inl ⟨k2.setProc np fun q => {q with state := .unused}, hrun.trans (bind_ok halloc),
        ⟨hlast.state hunused hstate, hlast.ftable, hlast.vol⟩, hmem', Or.inr rfl⟩
    | cons stp rest =>
      have halloc : (onMem kalloc).run k2 = .ok (some stp) {k2 with mem := k.mem.taken stp rest} :=
        onMem_run ((kalloc_run _).trans (by rw [hmem', hfree]))
      refine Or.inr ⟨np, stp, rest, ({k2 with mem := k.mem.taken stp rest} : Kernel).setProc np fun q =>
        {q with kstack := .ofNat stp + kstacksize, tf := ⟨fun _ => 0, 0, 0⟩},
        (hembryo.trans (.setMem np k2 _)).trans (.setProc np _ _), hrun.trans (bind_ok halloc), hfree, hplace,
        hunused, rfl, ?_⟩
      rw [Kernel.proc, Kernel.setProc, proc_setProc_self]

/-! ### Descriptors and the current directory -/

/-- The descriptors of `np` may differ, and files may have more references. -/
structure Duped (np : ProcId) (k k' : Kernel) : Prop where
  proc : ∀ q, q ≠ np → k'.proc q = k.proc q
  child : (k'.proc np).pgdir = (k.proc np).pgdir ∧ (k'.proc np).parent = (k.proc np).parent
  ref : ∀ f, (k.ftable f).ref ≤ (k'.ftable f).ref
  mem : k'.mem = k.mem

theorem dupSlot_run (hne : p ≠ np) (fd : Fin nofile)
    (hfiles : ∀ fd f, (k.proc p).ofile fd = some f → 1 ≤ (k.ftable f).ref) (h : Duped np k k') :
    ∃ k'', (dupSlot p np fd).run k' = .ok () k'' ∧ Duped np k k'' := by
  have hproc := h.proc p hne
  cases hslot : (k.proc p).ofile fd with
  | none =>
    refine ⟨k', ?_, h⟩
    rw [dupSlot, bind_ok (get_run k'), hproc, hslot]
    rfl
  | some f =>
    have hpos : ¬ (k'.ftable f).ref < 1 := by
      have := hfiles fd f hslot
      have := h.ref f
      omega
    refine ⟨(k'.setFile f fun g => {g with ref := g.ref + 1}).setSlot np fd (some f), ?_, ?_⟩
    · have hdup : (filedup f).run k' = .ok f (k'.setFile f fun g => {g with ref := g.ref + 1}) := by
        rw [filedup, bind_ok (get_run k'), if_neg hpos]
        rfl
      rw [dupSlot, bind_ok (get_run k'), hproc, hslot]
      exact bind_ok hdup
    · refine ⟨fun q hq => (proc_setProc_of_ne hq).trans (h.proc q hq), ?_, fun e => ?_, h.mem⟩
      · rw [Kernel.setSlot, Kernel.proc, Kernel.setProc, proc_setProc_self]
        exact h.child
      · refine (h.ref e).trans ?_
        show (k'.ftable e).ref ≤ (update k'.ftable f {k'.ftable f with ref := (k'.ftable f).ref + 1} e).ref
        by_cases he : e = f
        · rw [he, update_self]
          exact Int.le_add_one (Int.le_refl _)
        · rw [update_of_ne he]

/-- The loop over descriptors in `fork` returns. -/
theorem dupSlots_run (hne : p ≠ np) (hfiles : ∀ fd f, (k.proc p).ofile fd = some f → 1 ≤ (k.ftable f).ref) :
    ∃ k', ((List.finRange nofile).forM (dupSlot p np)).run k = .ok () k' ∧ Duped np k k' := by
  have hloop := Triple.forM (List.finRange nofile) (dupSlot p np) (fun _ => Duped np k) (fun _ _ => False)
    fun i hi s hs => by
      obtain ⟨s', hrun, hs'⟩ := dupSlot_run hne (List.finRange nofile)[i] hfiles hs
      rw [hrun]
      exact .ok hs'
  have hstart : Duped np k k := ⟨fun _ _ => rfl, ⟨rfl, rfl⟩, fun _ => le_refl _, rfl⟩
  obtain ⟨u, k', hrun, hduped⟩ := (hloop k hstart).returns fun _ _ => id
  exact ⟨k', hrun, hduped⟩

theorem shareCwd_run (np : ProcId) {cwd : Ptr} (hcwd : (k.proc p).cwd = some cwd) :
    ∃ k', (shareCwd p np).run k = .ok () k' ∧ (∀ q, q ≠ np → k'.proc q = k.proc q) ∧
      ((k'.proc np).pgdir = (k.proc np).pgdir ∧ (k'.proc np).parent = (k.proc np).parent) ∧ k'.mem = k.mem := by
  obtain ⟨vol, hvol⟩ : ∃ vol, (inodeShare cwd).run k.vol = .ok cwd vol := ⟨_, rfl⟩
  refine ⟨({k with vol} : Kernel).setProc np fun q => {q with cwd := some cwd}, ?_,
    fun q hq => proc_setProc_of_ne hq, ?_, rfl⟩
  · rw [shareCwd, bind_ok (get_run k), hcwd]
    exact bind_ok (onVol_run hvol)
  · rw [Kernel.proc, Kernel.setProc, proc_setProc_self]
    exact ⟨rfl, rfl⟩

/-! ### The call -/

/-- The page that the stack of the child takes is no page of the parent. -/
theorem Parent.taken {kend stp : Nat} (h : Parent kend m r pages) (hfree : m.free = stp :: rest) :
    Parent kend (m.taken stp rest) r pages ∧ ∀ n, (m.taken stp rest).lookup r n = m.lookup r n := by
  obtain ⟨hdir, -, hlookup⟩ := h.pgdir.take hfree
  refine ⟨⟨hdir, fun n hn => by rw [hlookup, h.mapped n hn], fun n hn hmem => ?_⟩, hlookup⟩
  rw [Memory.frame, hlookup] at hmem
  exact h.used n hn (hfree ▸ List.mem_cons_of_mem stp hmem)

theorem page_taken_of_notMem {stp q : Nat} (hfree : m.free = stp :: rest) (hq : q ∉ m.free) :
    q ∉ (m.taken stp rest).free ∧ (m.taken stp rest).page q = m.page q := by
  rw [hfree, List.mem_cons, not_or] at hq
  exact ⟨hq.2, update_of_ne hq.1 ..⟩

/-- What a copy is does not depend on a page that was taken before. -/
theorem Copied.of_taken {kend stp : Nat} (hp : Parent kend m r pages) (hfree : m.free = stp :: rest)
    (h : Copied kend r d pages (m.taken stp rest) m') : Copied kend r d pages m m' := by
  have hsub : ∀ q ∈ (m.taken stp rest).free, q ∈ m.free := fun q hq => hfree ▸ List.mem_cons_of_mem stp hq
  obtain ⟨-, hlookup⟩ := hp.taken hfree
  refine ⟨h.pgdir, h.mapped, h.entry, fun n hn => ?_, h.distinct, fun n hn => ?_, fun t ht => hsub t (h.tables t ht),
    fun q hq => ?_, fun q hq => hsub q (h.free q hq)⟩
  · obtain ⟨hmem, hrest⟩ := h.fresh n hn
    exact ⟨hsub _ hmem, hrest⟩
  · rw [h.contents n hn, Memory.frame, hlookup]
    exact (page_taken_of_notMem hfree (hp.used n hn)).2
  · obtain ⟨hq', hpage⟩ := page_taken_of_notMem hfree hq
    rw [h.kept q hq', hpage]

namespace Embryo
variable {stp : Nat} (h : Embryo env p.1 k np stp rest k1) (hne : p ≠ np)
include h hne

/-- If `fork` returns then `uvm_copy` has returned. -/
theorem copy_of_fork {n : Int} (hrun : (fork env p).run k = .ok n k') :
    ∃ x mem, (uvmCopy (k.proc p).pgdir.toNat).run (k.mem.taken stp rest) = .ok x mem := by
  obtain ⟨x, k2, hcopy, -⟩ := bind_eq_ok (((bind_ok h.run).trans (bind_ok (get_run k1))).symm.trans hrun)
  obtain ⟨mem, hcopy, -⟩ := onMem_ok hcopy
  rw [h.mem, h.proc p hne] at hcopy
  exact ⟨x, mem, hcopy⟩

theorem copies {x : Option Nat} {mem : Memory}
    (hcopy : (uvmCopy (k.proc p).pgdir.toNat).run (k.mem.taken stp rest) = .ok x mem) :
    (onMem (uvmCopy (k1.proc p).pgdir.toNat)).run k1 = .ok x {k1 with mem} :=
  onMem_run (by rw [h.mem, h.proc p hne]; exact hcopy)

/-- Without a directory the slot and the stack are given back. -/
theorem fork_none (hpage : IsPage env.kend stp)
    (hcopy : (uvmCopy (k.proc p).pgdir.toNat).run (k.mem.taken stp rest) = .ok none (k.mem.taken stp rest)) :
    ∃ k', (fork env p).run k = .ok (-1) k' ∧ Unchanged k k' ∧ k'.mem = (k.mem.taken stp rest).freed stp := by
  have hstack : ((k1.proc np).kstack - kstacksize).toNat = stp := by
    rw [h.kstack, UInt64.add_sub_cancel]
    exact toNat_ofNat_page hpage
  have hcopy' := h.copies hne hcopy
  rw [← h.mem] at hcopy' ⊢
  have hgive : (onMem (kfree env.kend ((k1.proc np).kstack - kstacksize).toNat)).run k1 =
      .ok () {k1 with mem := k1.mem.freed stp} := onMem_run (by rw [hstack]; exact kfree_run _ hpage)
  have hlast := (h.toBesides.trans (.setMem np k1 (k1.mem.freed stp))).trans
    (.setProc np _ fun q => {q with pgdir := 0, kstack := 0, state := .unused})
  have hstate : ((({k1 with mem := k1.mem.freed stp} : Kernel).setProc np fun q =>
      {q with pgdir := 0, kstack := 0, state := .unused}).proc np).state = .unused := by
    rw [Kernel.proc, Kernel.setProc, proc_setProc_self]
  refine ⟨_, ?_, ⟨hlast.state h.unused hstate, hlast.ftable, hlast.vol⟩, rfl⟩
  rw [fork, bind_ok h.run, bind_ok (get_run k1), bind_ok hcopy', bind_ok (get_run k1)]
  exact bind_ok hgive

/-- The child is made from what the parent has, once its pages are copied. -/
theorem fork_some (hfiles : ∀ fd f, (k.proc p).ofile fd = some f → 1 ≤ (k.ftable f).ref) {cwd : Ptr}
    (hcwd : (k.proc p).cwd = some cwd) {mem : Memory}
    (hcopy : (uvmCopy (k.proc p).pgdir.toNat).run (k.mem.taken stp rest) = .ok (some d) mem) :
    ∃ k', (fork env p).run k = .ok (k'.proc np).pid k' ∧ (k'.proc np).state = .runnable ∧
      (k'.proc np).pgdir = .ofNat d ∧ (k'.proc np).parent = some p ∧ (∀ q, q ≠ np → k'.proc q = k.proc q) ∧
      k'.mem = mem := by
  obtain ⟨k2, hk2⟩ : ∃ k2, k2 = ({k1 with mem} : Kernel).setProc np ((k1.proc p).forked d p) := ⟨_, rfl⟩
  have hself2 : k2.proc np = (k1.proc p).forked d p (k1.proc np) := by
    rw [hk2, Kernel.proc, Kernel.setProc, proc_setProc_self]
    rfl
  have hproc2 : ∀ q, q ≠ np → k2.proc q = k.proc q := fun q hq => by
    rw [← h.proc q hq, hk2]
    exact proc_setProc_of_ne hq
  have hftable2 : k2.ftable = k.ftable := by rw [hk2]; exact h.ftable
  have hmem2 : k2.mem = mem := by rw [hk2]; rfl
  obtain ⟨k3, hloop, hduped⟩ := dupSlots_run (k := k2) hne (by rw [hproc2 p hne, hftable2]; exact hfiles)
  obtain ⟨k4, hk4⟩ : ∃ k4, k4 = k3.setProc np fun q => {q with name := strncpy (k1.proc p).name 16} := ⟨_, rfl⟩
  have hproc4 : ∀ q, q ≠ np → k4.proc q = k.proc q := fun q hq => by
    rw [← hproc2 q hq, ← hduped.proc q hq, hk4]
    exact proc_setProc_of_ne hq
  have hself4 : (k4.proc np).pgdir = (k3.proc np).pgdir ∧ (k4.proc np).parent = (k3.proc np).parent := by
    rw [hk4, Kernel.proc, Kernel.setProc, proc_setProc_self]
    exact ⟨rfl, rfl⟩
  have hmem4 : k4.mem = k3.mem := by rw [hk4]; rfl
  obtain ⟨k5, hshare, hproc5, hself5, hmem5⟩ := shareCwd_run np ((congrArg Proc.cwd (hproc4 p hne)).trans hcwd)
  have hself6 : (k5.setProc np fun q => {q with state := .runnable}).proc np =
      {k5.proc np with state := .runnable} := by
    rw [Kernel.proc, Kernel.setProc, proc_setProc_self]
    rfl
  refine ⟨k5.setProc np fun q => {q with state := .runnable}, ?_, by rw [hself6], ?_, ?_, ?_, ?_⟩
  · rw [fork, bind_ok h.run, bind_ok (get_run k1), bind_ok (h.copies hne hcopy), bind_ok (get_run _)]
    dsimp only
    rw [bind_ok (modify_run _ _), show ({k1 with mem} : Kernel).proc p = k1.proc p from rfl, ← hk2, bind_ok hloop,
      bind_ok (modify_run _ _), ← hk4, bind_ok hshare, bind_ok (modify_run _ _)]
    rfl
  · rw [hself6, hself5.1, hself4.1, hduped.child.1, hself2]
    rfl
  · rw [hself6, hself5.2, hself4.2, hduped.child.2, hself2]
    rfl
  · exact fun q hq => (proc_setProc_of_ne hq).trans ((hproc5 q hq).trans (hproc4 q hq))
  · exact hmem5.trans (hmem4.trans (hduped.mem.trans hmem2))

end Embryo

/-- **`fork` is all or nothing** exactly if memory ends before the copy of the pages begins, or
lasts until it is done. It returns the number of a child that can run and has a copy of every
page; or it returns -1, and no process has another state, no count has changed, and as many
pages are free as before. No page is written that was not free. -/
theorem fork_allOrNothing (env : Env) (k : Kernel) (p : ProcId) (pages : Nat) (hp : (k.proc p).state ≠ .unused)
    (hfiles : ∀ fd f, (k.proc p).ofile fd = some f → 1 ≤ (k.ftable f).ref) (hcwd : (k.proc p).cwd ≠ none)
    (hparent : Parent env.kend k.mem (k.proc p).pgdir.toNat pages) :
    (∃ n k', (fork env p).run k = .ok n k' ∧
      ((∃ np, n = (k'.proc np).pid ∧ (k.proc np).state = .unused ∧ (k'.proc np).state = .runnable ∧
          (k'.proc np).parent = some p ∧ k'.proc p = k.proc p ∧
          Copied env.kend (k.proc p).pgdir.toNat (k'.proc np).pgdir.toNat pages k.mem k'.mem) ∨
        n = -1 ∧ (∀ q, (k'.proc q).state = (k.proc q).state) ∧ k'.ftable = k.ftable ∧ k'.vol = k.vol ∧
          k'.mem.free.length = k.mem.free.length ∧
          ((∀ i, (k.proc (p.1, i)).state ≠ .unused) ∨ k.mem.free.length < 1 + copyPages pages)) ∧
      ∀ q, q ∉ k.mem.free → k'.mem.page q = k.mem.page q) ↔
    (∀ i, (k.proc (p.1, i)).state ≠ .unused) ∨ k.mem.free = [] ∨ pages = 0 ∨
      1 + copyPages pages ≤ k.mem.free.length := by
  rcases allocProc_run env p.1 k with ⟨k1, hrun, hsame, hmem1, hwhy⟩ | ⟨np, stp, rest, k1, h⟩
  · refine iff_of_true ⟨-1, k1, ?_, Or.inr ⟨rfl, hsame.state, hsame.ftable, hsame.vol, by rw [hmem1],
      hwhy.imp id fun hempty => ?_⟩, fun q _ => by rw [hmem1]⟩ (hwhy.imp id Or.inl)
    · rw [fork, bind_ok hrun]
      rfl
    · rw [hempty, List.length_nil]
      omega
  have hne : p ≠ np := fun he => hp (he ▸ h.unused)
  obtain ⟨hparent1, -⟩ := hparent.taken h.free
  have hpages : ∀ q ∈ stp :: rest, IsPage env.kend q := fun q hq => hparent.pgdir.isPage q (h.free ▸ hq)
  obtain ⟨cwd, hcwd⟩ := Option.ne_none_iff_exists'.mp hcwd
  have hlength : k.mem.free.length = rest.length + 1 := by rw [h.free, List.length_cons]
  by_cases hroom : copyPages pages ≤ rest.length
  · obtain ⟨d, mem, hcopy, hcopied, -⟩ := uvmCopy_spec hparent1 hroom
    have hcopied := Copied.of_taken hparent h.free hcopied
    have hd : (UInt64.ofNat d).toNat = d :=
      toNat_ofNat_page (hparent.pgdir.isPage d (hcopied.tables d (isTable_root mem d)))
    obtain ⟨k', hfork, hstate, hpgdir, hpar, hothers, rfl⟩ := h.fork_some hne hfiles hcwd hcopy
    rw [← hd, ← hpgdir] at hcopied
    exact iff_of_true ⟨_, k', hfork, Or.inl ⟨np, rfl, h.unused, hstate, hpar, hothers p hne, hcopied⟩, hcopied.kept⟩
      (Or.inr (Or.inr (Or.inr (by omega))))
  have hnothing : (∀ i, (k.proc (p.1, i)).state ≠ .unused) ∨ k.mem.free = [] ∨ pages = 0 ∨
      1 + copyPages pages ≤ k.mem.free.length → pages = 0 ∧ rest = [] := by
    intro hmem
    rcases hmem with hfull | hempty | rfl | hroom'
    · exact absurd h.unused (by rw [← Prod.eta np, h.place]; exact hfull np.2)
    · rw [h.free] at hempty
      cases hempty
    · have hone : copyPages 0 = 1 := rfl
      exact ⟨rfl, List.eq_nil_of_length_eq_zero (by omega)⟩
    · omega
  by_cases hzero : pages = 0 ∧ rest = []
  · -- there is no page left, and nothing to copy
    obtain ⟨rfl, rfl⟩ := hzero
    obtain ⟨k', hfork, hsame, hmem⟩ := h.fork_none hne (hpages stp List.mem_cons_self) (uvmCopy_nothing hparent1 rfl)
    refine iff_of_true ⟨-1, k', hfork, Or.inr ⟨rfl, hsame.state, hsame.ftable, hsame.vol, ?_, Or.inr ?_⟩,
      fun q hq => ?_⟩ (Or.inr (Or.inr (Or.inl rfl)))
    · rw [hmem, hlength]
      rfl
    · rw [hlength]
      exact (by decide : 1 < 1 + copyPages 0)
    · have hne' : q ≠ stp := fun he => hq (he ▸ h.free ▸ List.mem_cons_self)
      rw [hmem, ← (page_taken_of_notMem h.free hq).2]
      exact update_of_ne hne' ..
  -- memory ends inside the copy: there is a fault, or a child that runs without a page
  refine iff_of_false (fun hforked => ?_) (mt hnothing hzero)
  obtain ⟨n, k', hfork, hcase, -⟩ := hforked
  obtain ⟨x, mem, hcopy⟩ := h.copy_of_fork hne hfork
  cases rest with
  | nil =>
    rw [uvmCopy_fault hparent1 (Nat.pos_of_ne_zero fun he => hzero ⟨he, rfl⟩) rfl] at hcopy
    cases hcopy
  | cons d rest =>
    obtain ⟨-, hlast⟩ := (uvmCopy_cases hparent1 rfl).resolve_left fun hcopies => by
      obtain ⟨_, _, -, hlength⟩ := hcopies
      exact hroom (Nat.le_of_add_right_le hlength.ge)
    obtain ⟨rfl, n', hlt, hn', hmissing⟩ := hlast _ _ hcopy
    obtain ⟨k3, hfork', hstate, hpgdir, -, hothers, rfl⟩ := h.fork_some hne hfiles hcwd hcopy
    obtain ⟨rfl, rfl⟩ := EStateM.Result.ok.inj (hfork.symm.trans hfork')
    rcases hcase with ⟨np', -, hunused', hstate', -, -, hcopied'⟩ | ⟨-, hsame, -⟩
    · have hchild : np' = np := by
        by_contra hnp
        rw [hothers np' hnp, hunused'] at hstate'
        cases hstate'
      have hd : (UInt64.ofNat d).toNat = d :=
        toNat_ofNat_page (hpages d (List.mem_cons_of_mem _ List.mem_cons_self))
      rw [hchild, hpgdir, hd] at hcopied'
      exact (hcopied'.mapped n' hn').mpr hlt hmissing
    · rw [hsame, h.unused] at hstate
      cases hstate

/-- A process of two pages whose current directory is inode 0 of the list. -/
def forker (mem : Memory) : Kernel :=
  (lonely mem 0x2000).setProc (0, 0) fun q => {q with cwd := some 0}

/-- The child has the two pages of its parent. -/
theorem fork_allOrNothing_exec : ∃ m np n k', Parent 0x100000 m 0x100000 2 ∧
    (fork {smallEnv with kend := 0x100000} (0, 0)).run (forker m) = .ok n k' ∧ n = (k'.proc np).pid ∧
    (k'.proc np).state = .runnable ∧ k'.mem.lookup (k'.proc np).pgdir.toNat 1 ≠ none := by
  obtain ⟨m, -, hp, hmem, -⟩ := roomyMemory_parent
  obtain ⟨n, k', hrun, hcase, -⟩ := (fork_allOrNothing {smallEnv with kend := 0x100000} (forker m) (0, 0) 2
    (show ProcState.running ≠ .unused by decide) (fun _ _ => nofun) (show some (0 : Ptr) ≠ none by decide) hp).mpr
    (Or.inr (Or.inr (Or.inr hmem)))
  rcases hcase with ⟨np, hn, -, hstate, -, -, hcopied⟩ | ⟨-, -, -, -, -, hfull | hshort⟩
  · exact ⟨m, np, n, k', hp, hrun, hn, hstate, (hcopied.mapped 1 (by decide)).mpr (by decide)⟩
  · exact absurd (show (Proc.zero).state = .unused from rfl) (hfull 1)
  · exact absurd hshort (not_lt.mpr hmem)

/-- A parent with one page, and three free pages: the stack, the directory and the frame of
the page take them. No table can be made for the child, and it runs without the page. -/
theorem fork_incomplete : ∃ n k', (fork smallEnv (0, 0)).run
      ((lonely {(pageWith fun _ => 0) with free := [0x200000, 0x201000, 0x202000]} 0x1000).setProc (0, 0) fun q =>
        {q with pgdir := 0x1000, cwd := some 0}) = .ok n k' ∧
    n = (k'.proc (0, 1)).pid ∧ (k'.proc (0, 1)).state = .runnable ∧
    k'.mem.lookup 0x1000 0 ≠ none ∧ k'.mem.lookup (k'.proc (0, 1)).pgdir.toNat 0 = none := by
  have hrun : returnedWith (fun n k' => n = (k'.proc (0, 1)).pid ∧ (k'.proc (0, 1)).state = .runnable ∧
        k'.mem.lookup 0x1000 0 ≠ none ∧ k'.mem.lookup (k'.proc (0, 1)).pgdir.toNat 0 = none)
      ((fork smallEnv (0, 0)).run
        ((lonely {(pageWith fun _ => 0) with free := [0x200000, 0x201000, 0x202000]} 0x1000).setProc (0, 0) fun q =>
          {q with pgdir := 0x1000, cwd := some 0})) = true := by decide
  obtain ⟨n, k', hrun, htest⟩ := exists_of_returnedWith hrun
  exact ⟨n, k', hrun, of_decide_eq_true htest⟩

end OS2021.Core
