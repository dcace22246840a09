import Mathlib.Logic.Relation
import OS2021.User.Sh.Lexer

/-! Commands in memory.

`IsTree` reads the nodes as a tree whose words are places in the line. Redirections are a
chain of nodes around a command: a chain does not depend on the node it starts from, which
may still be filled. The words of a tree stand in the line one after the other
(`Cmd.InOrder`). `nulterminate` visits the tree and puts a NUL after every word; the
words keep their characters, because what ends a word is never a character of one. -/
namespace OS2021.User.Sh
open Lib

/-! ### Trees -/

section Cmd
variable {W W' : Type}

def Cmd.map (f : W → W') : Cmd W → Cmd W'
  | .exec argv => .exec (argv.map f)
  | .redir c file mode fd => .redir (c.map f) (f file) mode fd
  | .pipe l r => .pipe (l.map f) (r.map f)
  | .list l r => .list (l.map f) (r.map f)
  | .back c => .back (c.map f)

/-- The words, in the order in which `nulterminate` comes to them. -/
def Cmd.words : Cmd W → List W
  | .exec argv => argv
  | .redir c file _ _ => c.words ++ [file]
  | .pipe l r => l.words ++ r.words
  | .list l r => l.words ++ r.words
  | .back c => c.words

def Cmd.depth : Cmd W → Nat
  | .exec _ => 1
  | .redir c _ _ _ => c.depth + 1
  | .pipe l r => max l.depth r.depth + 1
  | .list l r => max l.depth r.depth + 1
  | .back c => c.depth + 1

def Redir.map (f : W → W') (r : Redir W) : Redir W' := ⟨r.op, f r.file⟩

variable {c : Cmd W} {f g : W → W'}

theorem Cmd.map_congr (h : ∀ w ∈ c.words, f w = g w) : c.map f = c.map g := by
  induction c with
  | exec argv => exact congrArg Cmd.exec (List.map_congr_left h)
  | redir c file mode fd ih =>
    rw [Cmd.map, Cmd.map, ih fun w hw => h w (List.mem_append_left _ hw),
      h file (List.mem_append_right _ (List.mem_singleton_self _))]
  | pipe l r ihl ihr | list l r ihl ihr =>
    rw [Cmd.map, Cmd.map, ihl fun w hw => h w (List.mem_append_left _ hw),
      ihr fun w hw => h w (List.mem_append_right _ hw)]
  | back c ih => rw [Cmd.map, Cmd.map, ih h]

theorem Cmd.depth_map (f : W → W') (c : Cmd W) : (c.map f).depth = c.depth := by
  induction c with
  | exec => rfl
  | redir c file mode fd ih | back c ih => exact congrArg (· + 1) ih
  | pipe l r ihl ihr | list l r ihl ihr => rw [Cmd.map, Cmd.depth, ihl, ihr, Cmd.depth]

theorem map_wrap (f : W → W') (rs : List (Redir W)) (c : Cmd W) :
    (wrap rs c).map f = wrap (rs.map (Redir.map f)) (c.map f) := by
  induction rs generalizing c with
  | nil => rfl
  | cons r rs ih => exact ih _

theorem words_wrap (rs : List (Redir W)) (c : Cmd W) : (wrap rs c).words = c.words ++ rs.map Redir.file := by
  induction rs generalizing c with
  | nil => exact (List.append_nil _).symm
  | cons r rs ih =>
    refine (ih _).trans ?_
    rw [Cmd.words, List.append_assoc]
    rfl

end Cmd

/-! ### Order -/

def Before (v w : Span) : Prop := v.2 ≤ w.1

/-- The two spans have no place in common. -/
def Apart (v w : Span) : Prop := Before v w ∨ Before w v

/-- Words one after the other, between two places. -/
structure Laid (lo hi : Nat) (ws : List Span) : Prop where
  within : ∀ w ∈ ws, Within lo hi w
  order : ws.Pairwise Before

/-- What a redirection comes after: the redirections inside it and, if these are around a block, the
block. The words of a simple command may come after it. -/
def Cmd.outer {W : Type} : Cmd W → List W
  | .exec _ => []
  | .redir c file _ _ => c.outer ++ [file]
  | .pipe l r => l.words ++ r.words
  | .list l r => l.words ++ r.words
  | .back c => c.words

/-- The words stand in the line in the order of the tree: arguments one after the other, redirections
from the inside out, and what is on the left before what is on the right. -/
def Cmd.InOrder : Cmd Span → Prop
  | .exec argv => argv.Pairwise Before
  | .redir c file _ _ => c.InOrder ∧ (∀ w ∈ c.outer, Before w file) ∧ ∀ w ∈ c.words, Apart w file
  | .pipe l r => l.InOrder ∧ r.InOrder ∧ ∀ v ∈ l.words, ∀ w ∈ r.words, Before v w
  | .list l r => l.InOrder ∧ r.InOrder ∧ ∀ v ∈ l.words, ∀ w ∈ r.words, Before v w
  | .back c => c.InOrder

section Order
variable {lo mid hi lo' hi' : Nat} {v w : Span} {ws vs : List Span} {c : Cmd Span} {rs : List (Redir Span)}

theorem Within.mono (h : Within lo hi w) (hlo : lo' ≤ lo) (hhi : hi ≤ hi') : Within lo' hi' w :=
  ⟨hlo.trans h.1, h.2.1, h.2.2.trans hhi⟩

theorem Within.before (hv : Within lo mid v) (hw : Within mid hi w) : Before v w := hv.2.2.trans hw.1

theorem Laid.nil : Laid lo hi [] := ⟨fun _ hw => absurd hw List.not_mem_nil, .nil⟩

theorem Laid.mono (h : Laid lo hi ws) (hlo : lo' ≤ lo) (hhi : hi ≤ hi') : Laid lo' hi' ws :=
  ⟨fun w hw => (h.within w hw).mono hlo hhi, h.order⟩

theorem Laid.append (h : Laid lo mid ws) (h' : Laid mid hi vs) (hlo : lo ≤ mid) (hhi : mid ≤ hi) :
    Laid lo hi (ws ++ vs) where
  within := List.forall_mem_append.mpr ⟨fun w hw => (h.within w hw).mono le_rfl hhi,
    fun w hw => (h'.within w hw).mono hlo le_rfl⟩
  order := List.pairwise_append.mpr ⟨h.order, h'.order, fun v hv w hw => (h.within v hv).before (h'.within w hw)⟩

theorem Laid.single (h : Within lo hi w) : Laid lo hi [w] :=
  ⟨List.forall_mem_singleton.mpr h, List.pairwise_singleton ..⟩

theorem Cmd.outer_subset : c.outer ⊆ c.words := by
  induction c with
  | exec argv => exact List.nil_subset _
  | redir c file mode fd ih =>
    refine List.append_subset.mpr ⟨fun w hw => List.mem_append_left _ (ih hw), List.subset_append_right ..⟩
  | pipe l r | list l r | back c => exact List.Subset.refl _

/-- Redirections that follow each other are put around a command. -/
theorem Cmd.InOrder.wrap (h : c.InOrder) (hrs : (rs.map Redir.file).Pairwise Before)
    (hout : ∀ w ∈ c.outer, ∀ r ∈ rs, Before w r.file) (hapart : ∀ w ∈ c.words, ∀ r ∈ rs, Apart w r.file) :
    (wrap rs c).InOrder := by
  induction rs generalizing c with
  | nil => exact h
  | cons r rs ih =>
    rw [List.map_cons, List.pairwise_cons] at hrs
    have hfirst : ∀ r' ∈ rs, Before r.file r'.file := fun r' hr' => hrs.1 _ (List.mem_map_of_mem hr')
    refine ih ⟨h, fun w hw => hout w hw r (List.mem_cons_self ..),
      fun w hw => hapart w hw r (List.mem_cons_self ..)⟩ hrs.2 (fun w hw r' hr' => ?_) fun w hw r' hr' => ?_
    · rcases List.mem_append.mp hw with hw | hw
      · exact hout w hw r' (List.mem_cons_of_mem _ hr')
      · exact List.mem_singleton.mp hw ▸ hfirst r' hr'
    · rcases List.mem_append.mp hw with hw | hw
      · exact hapart w hw r' (List.mem_cons_of_mem _ hr')
      · exact .inl (List.mem_singleton.mp hw ▸ hfirst r' hr')

/-- Words in order do not overlap. -/
theorem Cmd.InOrder.apart (h : c.InOrder) : c.words.Pairwise Apart := by
  induction c with
  | exec argv => exact List.Pairwise.imp .inl h
  | redir c file mode fd ih =>
    refine List.pairwise_append.mpr ⟨ih h.1, List.pairwise_singleton .., fun v hv w hw => ?_⟩
    exact List.mem_singleton.mp hw ▸ h.2.2 v hv
  | pipe l r ihl ihr | list l r ihl ihr =>
    exact List.pairwise_append.mpr ⟨ihl h.1, ihr h.2.1, fun v hv w hw => .inl (h.2.2 v hv w hw)⟩
  | back c ih => exact ih h

end Order

/-! ### Nodes -/

/-- An array of `MAXARGS` pointers that starts with `xs` and is 0 after it. -/
def slots (xs : List Nat) : List (Option Nat) := xs.map some ++ List.replicate (maxargs - xs.length) none

/-- The nodes below `i` at `p` are the command `c`. -/
inductive IsTree (mem : Nat → Option Node) (i : Nat) : Nat → Cmd Span → Prop
  | exec {p ws} (hp : p < i) (hws : ws.length < maxargs)
      (hnode : mem p = some (.execcmd (slots (ws.map Prod.fst)) (slots (ws.map Prod.snd)))) :
      IsTree mem i p (.exec ws)
  | redir {p q c file mode fd} (hp : p < i) (hnode : mem p = some (.redircmd q file.1 file.2 mode fd))
      (h : IsTree mem i q c) : IsTree mem i p (.redir c file mode fd)
  | pipe {p left right c d} (hp : p < i) (hnode : mem p = some (.pipecmd left right)) (hl : IsTree mem i left c)
      (hr : IsTree mem i right d) : IsTree mem i p (.pipe c d)
  | list {p left right c d} (hp : p < i) (hnode : mem p = some (.listcmd left right)) (hl : IsTree mem i left c)
      (hr : IsTree mem i right d) : IsTree mem i p (.list c d)
  | back {p q c} (hp : p < i) (hnode : mem p = some (.backcmd q)) (h : IsTree mem i q c) : IsTree mem i p (.back c)

/-- The nodes from `ret` to `cmd` are the redirections `rs`, the last one first. -/
inductive Chain (mem : Nat → Option Node) (i : Nat) : Nat → List (Redir Span) → Nat → Prop
  | nil (cmd : Nat) : Chain mem i cmd [] cmd
  | cons {cmd p ret r rs} (hlt : cmd < p) (hp : p < i)
      (hnode : mem p = some (.redircmd cmd r.file.1 r.file.2 r.op.mode r.op.fd)) (h : Chain mem i p rs ret) :
      Chain mem i cmd (r :: rs) ret

variable {mem mem' : Nat → Option Node} {i i' p cmd ret ret' : Nat} {c c' : Cmd Span} {rs rs' : List (Redir Span)}

theorem IsTree.lt (h : IsTree mem i p c) : p < i := by
  cases h <;> assumption

section
variable (h : Chain mem i cmd rs ret)
include h

theorem Chain.lt (hcmd : cmd < i) : ret < i := by
  induction h with
  | nil => exact hcmd
  | cons hlt hp hnode h ih => exact ih hp

theorem Chain.tree (hc : IsTree mem i cmd c) : IsTree mem i ret (wrap rs c) := by
  induction h generalizing c with
  | nil => exact hc
  | cons hlt hp hnode h ih => exact ih (.redir hp hnode hc)

theorem Chain.trans (h' : Chain mem i ret rs' ret') : Chain mem i cmd (rs ++ rs') ret' := by
  induction h with
  | nil => exact h'
  | cons hlt hp hnode h ih => exact .cons hlt hp hnode (ih h')

omit h in
/-- Nodes that are added later do not matter. -/
theorem IsTree.mono (h : IsTree mem i p c) (hi : i ≤ i') (hmem : ∀ x < i, mem' x = mem x) : IsTree mem' i' p c := by
  induction h with
  | exec hp hws hnode => exact .exec (hp.trans_le hi) hws ((hmem _ hp).trans hnode)
  | redir hp hnode h ih => exact .redir (hp.trans_le hi) ((hmem _ hp).trans hnode) ih
  | pipe hp hnode hl hr ihl ihr => exact .pipe (hp.trans_le hi) ((hmem _ hp).trans hnode) ihl ihr
  | list hp hnode hl hr ihl ihr => exact .list (hp.trans_le hi) ((hmem _ hp).trans hnode) ihl ihr
  | back hp hnode h ih => exact .back (hp.trans_le hi) ((hmem _ hp).trans hnode) ih

/-- Nor does the node that a chain starts from. -/
theorem Chain.mono (hi : i ≤ i') (hmem : ∀ x < i, cmd < x → mem' x = mem x) : Chain mem' i' cmd rs ret := by
  induction h with
  | nil => exact .nil _
  | cons hlt hp hnode h ih =>
    exact .cons hlt (hp.trans_le hi) ((hmem _ hp hlt).trans hnode) (ih fun x hx hlt' => hmem x hx (hlt.trans hlt'))

end

theorem slots_injective : Function.Injective slots := fun xs ys h => by
  have hxs : ∀ xs, (slots xs).filterMap id = xs := fun xs => by
    rw [slots, List.filterMap_append, List.filterMap_map, List.filterMap_replicate_of_none rfl, List.append_nil]
    exact List.filterMap_some
  rw [← hxs xs, h, hxs]

section
variable (h : IsTree mem i p c)
include h

/-- There is one tree at a place. -/
theorem IsTree.unique (h' : IsTree mem i' p c') : c = c' := by
  induction h generalizing c' with
  | @exec p ws hp hws hnode =>
    cases h' with
    | @exec _ ws' _ _ hnode' =>
      obtain ⟨hargv, heargv⟩ := Node.execcmd.inj (Option.some.inj (hnode.symm.trans hnode'))
      rw [← List.zip_unzip ws, ← List.zip_unzip ws', List.unzip_eq_map, List.unzip_eq_map]
      rw [slots_injective hargv, slots_injective heargv]
    | _ => grind
  | redir hp hnode h ih =>
    cases h' with
    | redir _ hnode' h' =>
      obtain ⟨rfl, hfile, hefile, rfl, rfl⟩ := Node.redircmd.inj (Option.some.inj (hnode.symm.trans hnode'))
      rw [ih h', Prod.ext hfile hefile]
    | _ => grind
  | pipe hp hnode hl hr ihl ihr =>
    cases h' with
    | pipe _ hnode' hl' hr' =>
      obtain ⟨rfl, rfl⟩ := Node.pipecmd.inj (Option.some.inj (hnode.symm.trans hnode'))
      rw [ihl hl', ihr hr']
    | _ => grind
  | list hp hnode hl hr ihl ihr =>
    cases h' with
    | list _ hnode' hl' hr' =>
      obtain ⟨rfl, rfl⟩ := Node.listcmd.inj (Option.some.inj (hnode.symm.trans hnode'))
      rw [ihl hl', ihr hr']
    | _ => grind
  | back hp hnode h ih =>
    cases h' with
    | back _ hnode' h' =>
      obtain rfl := Node.backcmd.inj (Option.some.inj (hnode.symm.trans hnode'))
      rw [ih h']
    | _ => grind

def Node.children : Node → List Nat
  | .execcmd .. => []
  | .redircmd cmd .. => [cmd]
  | .pipecmd left right => [left, right]
  | .listcmd left right => [left, right]
  | .backcmd cmd => [cmd]

/-- `q` is a node of the tree at `p`. -/
def Below (mem : Nat → Option Node) (p q : Nat) : Prop :=
  Relation.ReflTransGen (fun p q => ∃ node, mem p = some node ∧ q ∈ node.children) p q

theorem IsTree.child {node : Node} {q : Nat} (hnode : mem p = some node) (hq : q ∈ node.children) :
    ∃ d, IsTree mem i q d := by
  cases h with
  | exec hp hws hnode' =>
    obtain rfl := Option.some.inj (hnode'.symm.trans hnode)
    exact absurd hq List.not_mem_nil
  | redir hp hnode' h | back hp hnode' h =>
    obtain rfl := Option.some.inj (hnode'.symm.trans hnode)
    exact ⟨_, List.mem_singleton.mp hq ▸ h⟩
  | pipe hp hnode' hl hr | list hp hnode' hl hr =>
    obtain rfl := Option.some.inj (hnode'.symm.trans hnode)
    rcases List.mem_cons.mp hq with rfl | hq
    · exact ⟨_, hl⟩
    · exact ⟨_, List.mem_singleton.mp hq ▸ hr⟩

theorem IsTree.of_below {q : Nat} (hq : Below mem p q) : ∃ d, IsTree mem i q d := by
  induction hq with
  | refl => exact ⟨c, h⟩
  | tail _ hchild ih =>
    obtain ⟨d, hd⟩ := ih
    obtain ⟨node, hnode, hmem⟩ := hchild
    exact hd.child hnode hmem

/-- The arguments of an exec node end in a null pointer inside the array. -/
theorem IsTree.argv {argv eargv : List (Option Nat)} (hnode : mem p = some (.execcmd argv eargv)) :
    argv.length = maxargs ∧ none ∈ argv := by
  cases h with
  | @exec _ ws hp hws hnode' =>
    have hargv := (Node.execcmd.inj (Option.some.inj (hnode'.symm.trans hnode))).1
    have hlen : ws.length < maxargs := hws
    rw [← hargv, slots, List.length_append, List.length_map, List.length_replicate, List.length_map]
    refine ⟨Nat.add_sub_cancel' hlen.le, List.mem_append_right _ (List.mem_replicate.mpr ⟨?_, rfl⟩)⟩
    exact Nat.sub_ne_zero_of_lt hlen
  | _ => grind

end

/-! ### NULs -/

/-- The line with a NUL at each of these places. -/
def nuls (es : List Nat) (line : List UInt8) : List UInt8 := es.foldl (fun buf e => buf.set e 0) line

variable {st : State} {line : List UInt8} {es : List Nat} {n : Nat}

theorem nuls_append (es es' : List Nat) (line : List UInt8) : nuls (es ++ es') line = nuls es' (nuls es line) :=
  List.foldl_append

/-- The loop stops at the first null pointer. -/
theorem nulterminateArgs_run (xs es : List Nat) (hlen : xs.length = es.length) (argv eargv : List (Option Nat)) :
    (nulterminateArgs (xs.map some ++ none :: argv) (es.map some ++ eargv)).run st =
      .ok () {st with buf := nuls es st.buf} := by
  induction xs generalizing es st with
  | nil =>
    cases es with
    | nil => rfl
    | cons => cases hlen
  | cons x xs ih =>
    cases es with
    | nil => cases hlen
    | cons e es => exact ih es (Nat.succ.inj hlen)

theorem slots_eq (xs : List Nat) (h : xs.length < maxargs) :
    slots xs = xs.map some ++ none :: List.replicate (maxargs - xs.length - 1) none := by
  rw [slots, ← List.replicate_succ, Nat.sub_one_add_one (Nat.sub_ne_zero_of_lt h)]

/-- **`nulterminate` visits the whole tree**, and puts a NUL after every word. -/
theorem nulterminate_run (h : IsTree mem i p c) (hmem : st.mem = mem) (hn : c.depth ≤ n) :
    (nulterminate n p).run st = .ok () {st with buf := nuls (c.words.map Prod.snd) st.buf} := by
  induction h generalizing st n with
  | @exec p ws hp hws hnode =>
    obtain ⟨n, rfl⟩ := Nat.exists_eq_add_one.mpr (Nat.zero_lt_of_lt hn)
    rw [nulterminate, bind_ok (get_run _), (congrFun hmem _).trans hnode]
    have hlen : (ws.map Prod.fst).length < maxargs := (List.length_map _).trans_lt hws
    dsimp only
    rw [slots_eq _ hlen, slots]
    exact nulterminateArgs_run (ws.map Prod.fst) (ws.map Prod.snd) (by rw [List.length_map, List.length_map]) ..
  | redir hp hnode h ih =>
    obtain ⟨n, rfl⟩ := Nat.exists_eq_add_one.mpr (Nat.zero_lt_of_lt hn)
    rw [nulterminate, bind_ok (get_run _), (congrFun hmem _).trans hnode]
    dsimp only
    rw [bind_ok (ih hmem (Nat.le_of_succ_le_succ hn)), Cmd.words, List.map_append, nuls_append]
    rfl
  | pipe hp hnode hl hr ihl ihr | list hp hnode hl hr ihl ihr =>
    obtain ⟨n, rfl⟩ := Nat.exists_eq_add_one.mpr (Nat.zero_lt_of_lt hn)
    obtain ⟨hnl, hnr⟩ := Nat.max_le.mp (Nat.le_of_succ_le_succ hn)
    rw [nulterminate, bind_ok (get_run _), (congrFun hmem _).trans hnode]
    dsimp only
    rw [bind_ok (ihl hmem hnl), Cmd.words, List.map_append, nuls_append]
    exact ihr hmem hnr
  | back hp hnode h ih =>
    obtain ⟨n, rfl⟩ := Nat.exists_eq_add_one.mpr (Nat.zero_lt_of_lt hn)
    rw [nulterminate, bind_ok (get_run _), (congrFun hmem _).trans hnode]
    exact ih hmem (Nat.le_of_succ_le_succ hn)

/-! ### Strings after it -/

/-- The string that starts at `s`. -/
def cstr (buf : List UInt8) (s : Nat) : List UInt8 := (buf.drop s).takeWhile (· ≠ 0)

theorem length_nuls (es : List Nat) (line : List UInt8) : (nuls es line).length = line.length := by
  induction es generalizing line with
  | nil => rfl
  | cons e es ih => exact (ih _).trans List.length_set

theorem getElem?_nuls_of_not_mem {j : Nat} (hj : j ∉ es) : (nuls es line)[j]? = (line)[j]? := by
  induction es generalizing line with
  | nil => rfl
  | cons e es ih =>
    rw [List.mem_cons, not_or] at hj
    exact (ih hj.2).trans (List.getElem?_set_ne (Ne.symm hj.1))

theorem getElem?_nuls_of_mem {j : Nat} (hj : j ∈ es) (hlen : j < line.length) : (nuls es line)[j]? = some 0 := by
  induction es generalizing line with
  | nil => cases hj
  | cons e es ih =>
    by_cases hes : j ∈ es
    case pos => exact ih hes (hlen.trans_eq List.length_set.symm)
    case neg =>
      obtain rfl := (List.mem_cons.mp hj).resolve_right hes
      exact (getElem?_nuls_of_not_mem hes).trans (List.getElem?_set_self hlen)

/-- Where a word ends is no character of a word. -/
theorem IsWord.not_mem {v : Span} {e : Nat} (hv : IsWord line v)
    (he : ∀ c ∈ (line.drop e).head?, ¬ IsWordChar c) : ¬ (v.1 ≤ e ∧ e < v.2) := by
  intro hmem
  obtain ⟨k, rfl⟩ := Nat.exists_eq_add_of_le hmem.1
  have hlen := hv.le_length
  have hlt : v.1 + k < line.length := by omega
  have hchar : (line)[v.1 + k] ∈ text line v := by
    refine List.mem_of_getElem? (i := k) ?_
    rw [text, List.getElem?_take_of_lt (by omega), List.getElem?_drop, List.getElem?_eq_getElem hlt]
  refine he _ ?_ (hv.chars _ hchar)
  rw [List.head?_drop, List.getElem?_eq_getElem hlt]
  rfl

/-- **Words are strings.** The NUL after a word is the first one from its start on, if all
NULs have been put after words. -/
theorem cstr_nuls {w : Span} (hw : IsWord line w) (hmem : w.2 ∈ es) (hzero : ∀ c ∈ line, c ≠ 0)
    (hes : ∀ e ∈ es, ∀ c ∈ (line.drop e).head?, ¬ IsWordChar c) : cstr (nuls es line) w.1 = text line w := by
  have hle := hw.le
  -- no NUL is put on a character of the word, because no word ends there
  have htext : ((nuls es line).drop w.1).take (w.2 - w.1) = text line w := by
    refine List.ext_getElem? fun k => ?_
    by_cases hk : k < w.2 - w.1
    case neg =>
      have hout : ∀ l : List UInt8, (l.take (w.2 - w.1))[k]? = none := fun l =>
        List.getElem?_eq_none ((List.length_take_le ..).trans (Nat.le_of_not_lt hk))
      rw [text, hout, hout]
    case pos =>
      rw [text, List.getElem?_take_of_lt hk, List.getElem?_take_of_lt hk, List.getElem?_drop, List.getElem?_drop]
      refine getElem?_nuls_of_not_mem fun hend => ?_
      exact hw.not_mem (hes _ hend) ⟨Nat.le_add_right .., by omega⟩
  have hsplit : (nuls es line).drop w.1 = text line w ++ (nuls es line).drop w.2 := by
    rw [← htext, show w.2 = w.1 + (w.2 - w.1) by omega, ← List.drop_drop, Nat.add_sub_cancel_left]
    exact (List.take_append_drop ..).symm
  have hnul : ((nuls es line).drop w.2).takeWhile (· ≠ 0) = [] := by
    have hhead : ∀ c ∈ ((nuls es line).drop w.2).head?, c = 0 := fun c hc => by
      rw [List.head?_drop] at hc
      have hlt := (List.getElem?_eq_some_iff.mp hc).1
      rw [length_nuls] at hlt
      rw [getElem?_nuls_of_mem hmem hlt] at hc
      exact (Option.some.inj hc).symm
    generalize (nuls es line).drop w.2 = rest at hhead
    cases rest with
    | nil => rfl
    | cons c rest => rw [hhead c rfl, List.takeWhile_cons_of_neg (by decide)]
  rw [cstr, hsplit, List.takeWhile_append_of_pos, hnul, List.append_nil]
  exact fun c hc => decide_eq_true (hzero c (List.mem_of_mem_drop (List.mem_of_mem_take hc)))

end OS2021.User.Sh
