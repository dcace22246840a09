import OS2021.User.Sh.Descent
import OS2021.User.Sh.Trees

/-! The parser follows the one on tokens.

Each function of the parser does what its counterpart does with the tokens that are left,
and leaves the tree in memory; or memory is used up. Nodes that were there are left alone,
so a tree built first is still there when the next one is. -/
namespace OS2021.User.Sh
open Lib Function

/-- The one way to stop that the parser on tokens does not have. -/
def OutOfMemory (e : Stop) : Prop := e = .memoryUsedOut

/-- The nodes below `k` are left as they are, and the cursor does not move back. -/
structure Keeps (k : Nat) (st st' : State) : Prop where
  le : st.i ≤ st'.i
  cursor : st.s ≤ st'.s
  mem : ∀ p < k, st'.mem p = st.mem p

/-- Nodes are only added. -/
abbrev Grows (st st' : State) : Prop := Keeps st.i st st'

/-- The command `t` is at `p`, with its words between two places of the line. -/
def State.Stored (line : List UInt8) (lo hi : Nat) (st : State) (p : Nat) (t : Cmd (List UInt8)) : Prop :=
  ∃ c, IsTree st.mem st.i p c ∧ (∀ w ∈ c.words, IsWord line w ∧ Within lo hi w) ∧ c.InOrder ∧ c.map (text line) = t

/-- The redirections `rs` have been put around `cmd`. -/
def State.Wrapped (line : List UInt8) (lo hi : Nat) (st : State) (cmd : Nat) (rs : List (Redir (List UInt8)))
    (ret : Nat) : Prop :=
  ∃ rs', Chain st.mem st.i cmd rs' ret ∧ (∀ r ∈ rs', IsWord line r.file) ∧ Laid lo hi (rs'.map Redir.file) ∧
    rs'.map (Redir.map (text line)) = rs

variable {line : List UInt8} {st st' st'' : State} {ts : List Token} {n p cmd ret lo mid hi lo' hi' : Nat}
  {t : Cmd (List UInt8)} {rs rs' : List (Redir (List UInt8))} {ws : List (List UInt8)}

theorem Keeps.trans {k : Nat} (h : Keeps k st st') (h' : Keeps k st' st'') : Keeps k st st'' :=
  ⟨h.le.trans h'.le, h.cursor.trans h'.cursor, fun p hp => (h'.mem p hp).trans (h.mem p hp)⟩

theorem Keeps.weaken {k k' : Nat} (h : Keeps k st st') (hk : k' ≤ k) : Keeps k' st st' :=
  ⟨h.le, h.cursor, fun p hp => h.mem p (hp.trans_le hk)⟩

theorem Grows.trans (h : Grows st st') (h' : Grows st' st'') : Grows st st'' := Keeps.trans h (h'.weaken h.le)

theorem State.Moved.grows (h : st.Moved st') : Grows st st' := by
  obtain ⟨s, hs, rfl⟩ := h
  exact ⟨le_rfl, hs, fun _ _ => rfl⟩

theorem State.Stored.grows (h : st.Stored line lo hi p t) (hg : Grows st st') : st'.Stored line lo hi p t := by
  obtain ⟨c, hc, hwords, horder, ht⟩ := h
  exact ⟨c, hc.mono hg.le hg.mem, hwords, horder, ht⟩

theorem State.Stored.lt (h : st.Stored line lo hi p t) : p < st.i := by
  obtain ⟨c, hc, -⟩ := h
  exact hc.lt

theorem State.Stored.mono (h : st.Stored line lo hi p t) (hlo : lo' ≤ lo) (hhi : hi ≤ hi') :
    st.Stored line lo' hi' p t := by
  obtain ⟨c, hc, hwords, horder, ht⟩ := h
  exact ⟨c, hc, fun w hw => ⟨(hwords w hw).1, (hwords w hw).2.mono hlo hhi⟩, horder, ht⟩

/-! A node makes a tree of the trees below it. -/

section Nodes
variable {p' : Nat} {t' : Cmd (List UInt8)} (h : st.Stored line lo hi p t) (hlt : ret < st.i)
include h hlt

theorem State.Stored.back (hnode : st.mem ret = some (.backcmd p)) : st.Stored line lo hi ret (.back t) := by
  obtain ⟨c, hc, hwords, horder, rfl⟩ := h
  exact ⟨.back c, .back hlt hnode hc, hwords, horder, rfl⟩

section
variable (h' : st.Stored line hi hi' p' t') (hlo : lo ≤ hi) (hhi : hi ≤ hi')
include h' hlo hhi

omit hlt in
/-- Two commands, the first of which ends where the second one starts. -/
theorem State.Stored.both : ∃ c d, IsTree st.mem st.i p c ∧ IsTree st.mem st.i p' d ∧ c.InOrder ∧ d.InOrder ∧
      (∀ v ∈ c.words, ∀ w ∈ d.words, Before v w) ∧ (∀ w ∈ c.words ++ d.words, IsWord line w ∧ Within lo hi' w) ∧
      c.map (text line) = t ∧ d.map (text line) = t' := by
  obtain ⟨c, hc, hwords, horder, rfl⟩ := h
  obtain ⟨d, hd, hwords', horder', rfl⟩ := h'
  refine ⟨c, d, hc, hd, horder, horder', fun v hv w hw => (hwords v hv).2.before (hwords' w hw).2,
    List.forall_mem_append.mpr ⟨fun w hw => ?_, fun w hw => ?_⟩, rfl, rfl⟩
  · exact ⟨(hwords w hw).1, (hwords w hw).2.mono le_rfl hhi⟩
  · exact ⟨(hwords' w hw).1, (hwords' w hw).2.mono hlo le_rfl⟩

theorem State.Stored.pipe (hnode : st.mem ret = some (.pipecmd p p')) : st.Stored line lo hi' ret (.pipe t t') := by
  obtain ⟨c, d, hc, hd, horder, horder', hbefore, hwords, rfl, rfl⟩ := h.both h' hlo hhi
  exact ⟨.pipe c d, .pipe hlt hnode hc hd, hwords, ⟨horder, horder', hbefore⟩, rfl⟩

theorem State.Stored.list (hnode : st.mem ret = some (.listcmd p p')) : st.Stored line lo hi' ret (.list t t') := by
  obtain ⟨c, d, hc, hd, horder, horder', hbefore, hwords, rfl, rfl⟩ := h.both h' hlo hhi
  exact ⟨.list c d, .list hlt hnode hc hd, hwords, ⟨horder, horder', hbefore⟩, rfl⟩

end

end Nodes

theorem State.Wrapped.nil (st : State) (cmd : Nat) : st.Wrapped line lo hi cmd [] cmd :=
  ⟨[], .nil cmd, fun _ hr => absurd hr List.not_mem_nil, .nil, rfl⟩

/-! ### Constructors -/

/-- A node is added, or memory is used up. -/
theorem newcmd_ends {sz : Nat} (h : st.Reads line ts) (hsz : 0 < sz) (node : Node) :
    Ends (fun p st' => Grows st st' ∧ st'.Reads line ts ∧ st.i ≤ p ∧ p < st'.i ∧ st'.mem p = some node)
      (fun e _ => OutOfMemory e) ((newcmd sz node).run st) := by
  rw [newcmd]
  by_cases hout : st.i + sz > maxn
  case pos =>
    have hmalloc : (malloc1 sz).run st = .error .memoryUsedOut {st with i := st.i + sz} := by
      rw [malloc1, bind_ok (modify_run ..), bind_ok (get_run _), if_pos hout]
      rfl
    rw [bind_error hmalloc]
    exact .error rfl
  case neg =>
    have hmalloc : (malloc1 sz).run st = .ok st.i {st with i := st.i + sz} := by
      rw [malloc1, bind_ok (modify_run ..), bind_ok (get_run _), if_neg hout]
      exact congrArg (EStateM.Result.ok · _) (Nat.add_sub_cancel ..)
    rw [bind_ok hmalloc, bind_ok (modify_run ..)]
    refine .ok ⟨⟨Nat.le_add_right .., le_rfl, fun p hp => ?_⟩, ⟨h.buf, h.le, h.rest⟩, le_rfl,
      Nat.lt_add_of_pos_right hsz, ?_⟩
    · exact update_of_ne hp.ne ..
    · exact update_self ..

/-! ### Redirections -/

/-- What has been put around a command, and what is left. -/
def Redirected (line : List UInt8) (st : State) (cmd : Nat) (r : List (Redir (List UInt8)) × List Token) (ret : Nat)
    (st' : State) : Prop :=
  Grows st st' ∧ st'.Reads line r.2 ∧ st'.Wrapped line st.s st'.s cmd r.1 ret

/-- The three cases of the `switch` differ in mode and descriptor. -/
theorem redircmd_code (op : RedirOp) (cmd q eq : Nat) (next : Nat → P Nat) :
    (if (Token.redir op).code = byte '<' then redircmd cmd q eq oRdonly 0 >>= next
      else if (Token.redir op).code = byte '>' then redircmd cmd q eq (oWronly ||| oCreat) 1 >>= next
      else if (Token.redir op).code = byte '+' then redircmd cmd q eq (oWronly ||| oCreat) 1 >>= next
      else pure cmd >>= next) = redircmd cmd q eq op.mode op.fd >>= next := by
  cases op <;> rfl

/-- One more redirection inside. -/
theorem State.Wrapped.cons {op : RedirOp} {w : Span} (hlt : cmd < p) (hp : p < st.i)
    (hnode : st.mem p = some (.redircmd cmd w.1 w.2 op.mode op.fd)) (hg : Grows st st') (hw : IsWord line w)
    (hwithin : Within lo mid w) (hlo : lo ≤ mid) (hhi : mid ≤ hi) (h : st'.Wrapped line mid hi p rs ret) :
    st'.Wrapped line lo hi cmd (⟨op, text line w⟩ :: rs) ret := by
  obtain ⟨rs', hchain, hwords, hlaid, rfl⟩ := h
  refine ⟨⟨op, w⟩ :: rs', .cons hlt (hp.trans_le hg.le) ((hg.mem p hp).trans hnode) hchain, ?_, ?_, rfl⟩
  · exact List.forall_mem_cons.mpr ⟨hw, hwords⟩
  · exact (Laid.single hwithin).append hlaid hlo hhi

theorem parseredirs_follows (hzero : ∀ c ∈ line, c ≠ 0) (h : st.Reads line ts) (hcmd : cmd < st.i) :
    Follows OutOfMemory (Redirected line st cmd) (Tokens.redirs n ts)
      ((parseredirs line.length n cmd).run st) := by
  induction n generalizing ts st cmd with
  | zero => exact .error Stop.hang st
  | succ n ih =>
    obtain ⟨st1, hpeek, hm1, h1⟩ := peek_run h hzero [byte '<', byte '>'] (by decide +kernel)
    have hdone : Follows OutOfMemory (Redirected line st cmd) (.ok ([], ts)) (.ok cmd st1) :=
      .ok ⟨hm1.grows, h1, .nil st1 cmd⟩
    rw [parseredirs, bind_ok hpeek]
    rcases ts with _ | ⟨t, ts⟩
    case nil => exact hdone
    cases t with
    | redir op =>
      have hsome : peeks [byte '<', byte '>'] (.redir op :: ts) = true := by cases op <;> rfl
      obtain ⟨q0, e0, st2, hget2, hm2, h2⟩ := gettoken_cons hzero h1
      rw [hsome, if_pos rfl, bind_ok hget2]
      dsimp only
      obtain ⟨q, e, st3, hget3, hm3, h3, hword⟩ := gettoken_run h2 hzero
      have hpanic : Follows OutOfMemory (Redirected line st cmd) (.error (.panic "missing file for redirection"))
          (.error (.panic "missing file for redirection") st3) := .error _ _
      rw [bind_ok hget3]
      dsimp only
      rcases ts with _ | ⟨t, ts⟩
      case nil => exact hpanic
      cases t with
      | word w =>
        obtain ⟨hisword, rfl, hwithin⟩ := hword w rfl
        have hg2 := hm1.grows.trans hm2.grows
        have hg3 := hg2.trans hm3.grows
        rw [if_neg (not_not.mpr (show codeOf (.word _ :: ts) = byte 'a' from rfl)), redircmd_code]
        refine Follows.skip (newcmd_ends h3 (by decide) _) fun p st4 hnew => ?_
        obtain ⟨hg4, h4, hle, hlt, hnode⟩ := hnew
        have hcmd3 : cmd < p := (hcmd.trans_le hg3.le).trans_le hle
        have hg := hg3.trans hg4
        refine (ih h4 hlt).map fun r ret st' hr => ⟨_, rfl, hg.trans hr.1, hr.2.1, ?_⟩
        exact hr.2.2.cons hcmd3 hlt hnode hr.1 hisword (hwithin.mono hg2.cursor hg4.cursor) hg.cursor hr.1.cursor
      | redir op' => cases op' <;> exact hpanic
      | _ => exact hpanic
    | _ => exact hdone

/-! ### Arguments -/

/-- The exec node at `cmd` has the words `ws` so far, and the redirections `rs` are around it. -/
def State.Filled (line : List UInt8) (lo hi : Nat) (st : State) (cmd : Nat) (ws : List (List UInt8))
    (rs : List (Redir (List UInt8))) (ret : Nat) : Prop :=
  ∃ (ws' : List Span) (rs' : List (Redir Span)),
    st.mem cmd = some (.execcmd (slots (ws'.map Prod.fst)) (slots (ws'.map Prod.snd))) ∧
    Chain st.mem st.i cmd rs' ret ∧ (∀ w ∈ ws', IsWord line w) ∧ (∀ r ∈ rs', IsWord line r.file) ∧
    Laid lo hi ws' ∧ Laid lo hi (rs'.map Redir.file) ∧ (∀ w ∈ ws', ∀ r ∈ rs', Apart w r.file) ∧
    ws'.map (text line) = ws ∧ rs'.map (Redir.map (text line)) = rs

theorem slots_set (xs : List Nat) (x : Nat) (h : xs.length < maxargs) :
    (slots xs).set xs.length (some x) = slots (xs ++ [x]) := by
  rw [slots_eq xs h, List.set_append_right _ _ (List.length_map _).le, List.length_map, Nat.sub_self,
    List.set_cons_zero,
    slots, List.map_append, List.append_assoc, List.length_append, Nat.sub_add_eq]
  rfl

theorem slots_set_none (xs : List Nat) (h : xs.length < maxargs) : (slots xs).set xs.length none = slots xs := by
  rw [slots_eq xs h, List.set_append_right _ _ (List.length_map _).le, List.length_map, Nat.sub_self,
    List.set_cons_zero]

theorem setArg_run {argv eargv : List (Option Nat)} {argc : Nat} (hnode : st.mem cmd = some (.execcmd argv eargv))
    (hargc : argc < maxargs) (q eq : Option Nat) :
    (setArg cmd argc q eq).run st = .ok () (st.store cmd (.execcmd (argv.set argc q) (eargv.set argc eq))) := by
  rw [setArg, bind_ok (get_run _), hnode]
  dsimp only
  rw [if_pos hargc]
  rfl

/-! Storing to a node leaves those before it and the line. -/

section Store
variable (node : Node)

theorem keeps_store (st : State) (cmd : Nat) : Keeps cmd st (st.store cmd node) :=
  ⟨le_rfl, le_rfl, fun _ hp => update_of_ne hp.ne ..⟩

theorem State.Reads.store (h : st.Reads line ts) : (st.store cmd node).Reads line ts := ⟨h.buf, h.le, h.rest⟩

end Store

/-- A word is added to the exec node. -/
theorem State.Filled.add {w : Span} (h : st.Filled line lo mid cmd ws rs ret) (hlt : ws.length < maxargs)
    (hw : IsWord line w) (hwithin : Within mid hi w) (hlo : lo ≤ mid) (hhi : mid ≤ hi) :
    ∃ node, (setArg cmd ws.length (some w.1) (some w.2)).run st = .ok () (st.store cmd node) ∧
      (st.store cmd node).Filled line lo hi cmd (ws ++ [text line w]) rs ret := by
  obtain ⟨ws', rs', hnode, hchain, hwords, hfiles, hlaid, hlaid', hapart, rfl, rfl⟩ := h
  rw [List.length_map] at hlt ⊢
  refine ⟨_, setArg_run hnode hlt _ _, ws' ++ [w], rs', ?_, hchain.mono le_rfl fun x _ hx => ?_, ?_, hfiles,
    hlaid.append (.single hwithin) hlo hhi, hlaid'.mono le_rfl hhi, ?_, List.map_append, rfl⟩
  · refine (update_self ..).trans ?_
    rw [List.map_append, List.map_append, ← List.length_map Prod.fst, List.map_singleton, List.map_singleton,
      slots_set _ _ (by rwa [List.length_map]), List.length_map, ← List.length_map Prod.snd,
      slots_set _ _ (by rwa [List.length_map])]
  · exact update_of_ne hx.ne' ..
  · exact List.forall_mem_append.mpr ⟨hwords, List.forall_mem_singleton.mpr hw⟩
  · -- the redirections so far are all before the new word
    refine List.forall_mem_append.mpr ⟨hapart, List.forall_mem_singleton.mpr fun r hr => .inr ?_⟩
    exact (hlaid'.within _ (List.mem_map_of_mem hr)).before hwithin

section
variable (h : st.Filled line lo hi cmd ws rs ret)
include h

theorem State.Filled.grows (hcmd : cmd < st.i) (hg : Grows st st') : st'.Filled line lo hi cmd ws rs ret := by
  obtain ⟨ws', rs', hnode, hchain, hws⟩ := h
  exact ⟨ws', rs', (hg.mem cmd hcmd).trans hnode, hchain.mono hg.le fun x hx _ => hg.mem x hx, hws⟩

theorem State.Filled.mono (hhi : hi ≤ hi') : st.Filled line lo hi' cmd ws rs ret := by
  obtain ⟨ws', rs', hnode, hchain, hwords, hfiles, hlaid, hlaid', hws⟩ := h
  exact ⟨ws', rs', hnode, hchain, hwords, hfiles, hlaid.mono le_rfl hhi, hlaid'.mono le_rfl hhi, hws⟩

theorem State.Filled.lt (hcmd : cmd < st.i) : ret < st.i := by
  obtain ⟨ws', rs', -, hchain, -⟩ := h
  exact hchain.lt hcmd

end

/-- More redirections are put around the exec node, which is left alone. -/
theorem State.Filled.wrap {ret' : Nat} (h : st.Filled line lo mid cmd ws rs ret) (hcmd : cmd < st.i)
    (hg : Grows st st') (h' : st'.Wrapped line mid hi ret rs' ret') (hlo : lo ≤ mid) (hhi : mid ≤ hi) :
    st'.Filled line lo hi cmd ws (rs ++ rs') ret' := by
  obtain ⟨ws', rs1, hnode, hchain, hwords, hfiles, hlaid, hlaid1, hapart, rfl, rfl⟩ := h.grows hcmd hg
  obtain ⟨rs2, hchain', hfiles', hlaid2, rfl⟩ := h'
  refine ⟨ws', rs1 ++ rs2, hnode, hchain.trans hchain', hwords, List.forall_mem_append.mpr ⟨hfiles, hfiles'⟩,
    hlaid.mono le_rfl hhi, ?_, fun w hw => List.forall_mem_append.mpr ⟨hapart w hw, fun r hr => .inl ?_⟩, rfl,
    List.map_append⟩
  · rw [List.map_append]
    exact hlaid1.append hlaid2 hlo hhi
  · exact (hlaid.within w hw).before (hlaid2.within _ (List.mem_map_of_mem hr))

/-- What the loop of `parseexec` has added to the node and to what is around it. -/
structure Extended (line : List UInt8) (lo : Nat) (st : State) (cmd : Nat) (ws : List (List UInt8))
    (rs : List (Redir (List UInt8)))
    (r : List (List UInt8 × List (Redir (List UInt8))) × List Token) (argc ret : Nat) (st' : State) : Prop where
  keeps : Keeps cmd st st'
  reads : st'.Reads line r.2
  argc_eq : argc = (ws ++ r.1.map Prod.fst).length
  argc_lt : argc < maxargs
  filled : st'.Filled line lo st'.s cmd (ws ++ r.1.map Prod.fst) (rs ++ r.1.flatMap Prod.snd) ret

theorem Extended.nil (hg : Grows st st') (h : st'.Reads line ts) (hcmd : cmd < st.i) (hws : ws.length < maxargs)
    (hfilled : st.Filled line lo st.s cmd ws rs ret) : Extended line lo st cmd ws rs ([], ts) ws.length ret st' where
  keeps := hg.weaken hcmd.le
  reads := h
  argc_eq := by rw [List.map_nil, List.append_nil]
  argc_lt := hws
  filled := by
    rw [List.map_nil, List.append_nil, List.flatMap_nil, List.append_nil]
    exact (hfilled.grows hcmd hg).mono hg.cursor

theorem Extended.cons {w : List UInt8} {argc : Nat} {r : List (List UInt8 × List (Redir (List UInt8))) × List Token}
    (hk : Keeps cmd st st') (h : Extended line lo st' cmd (ws ++ [w]) (rs ++ rs') r argc ret st'') :
    Extended line lo st cmd ws rs ((w, rs') :: r.1, r.2) argc ret st'' := by
  have hws : ws ++ (((w, rs') :: r.1).map Prod.fst) = ws ++ [w] ++ r.1.map Prod.fst := List.append_cons ..
  have hrs : rs ++ ((w, rs') :: r.1).flatMap Prod.snd = rs ++ rs' ++ r.1.flatMap Prod.snd :=
    (List.append_assoc ..).symm
  refine ⟨hk.trans h.keeps, h.reads, ?_, h.argc_lt, ?_⟩
  · rw [hws]
    exact h.argc_eq
  · rw [hws, hrs]
    exact h.filled

theorem parseargs_follows (hzero : ∀ c ∈ line, c ≠ 0) (h : st.Reads line ts) (hcmd : cmd < st.i)
    (hws : ws.length < maxargs) (hlo : lo ≤ st.s) (hfilled : st.Filled line lo st.s cmd ws rs ret) :
    Follows OutOfMemory (fun r a => Extended line lo st cmd ws rs r a.1 a.2) (Tokens.args n ws.length ts)
      ((parseargs line.length cmd n ws.length ret).run st) := by
  induction n generalizing ts st ws rs ret with
  | zero => exact .error Stop.hang st
  | succ n ih =>
    obtain ⟨st1, hpeek, hm1, h1⟩ := peek_run h hzero [byte '|', byte ')', byte '&', byte ';'] (by decide +kernel)
    obtain ⟨q, e, st2, hget, hm2, h2, hword⟩ := gettoken_run h1 hzero
    have hdone : Follows OutOfMemory (fun r a => Extended line lo st cmd ws rs r a.1 a.2) (.ok ([], ts))
        (.ok (ws.length, ret) st1) := .ok (.nil hm1.grows h1 hcmd hws hfilled)
    have hpanic : Follows OutOfMemory (fun r (a : Nat × Nat) => Extended line lo st cmd ws rs r a.1 a.2)
        (.error (.panic "syntax")) (.error (.panic "syntax") st2) := .error _ _
    have hg2 := hm1.grows.trans hm2.grows
    rw [parseargs, bind_ok hpeek]
    rcases ts with _ | ⟨t, ts⟩
    case nil =>
      show Follows _ _ (.ok ([], [])) ((gettoken line.length >>= _).run st1)
      rw [bind_ok hget]
      exact .ok (.nil hg2 h2 hcmd hws hfilled)
    cases t with
    | word w =>
      obtain ⟨hisword, rfl, hwithin⟩ := hword w rfl
      have hcode : codeOf (.word (text line (q, e)) :: ts) = byte 'a' := rfl
      obtain ⟨node, hset, hfilled3⟩ := (hfilled.grows hcmd hg2).add hws hisword (hwithin.mono hm1.grows.cursor le_rfl)
        hlo hg2.cursor
      have hk3 := keeps_store node st2 cmd
      have hcmd3 := hcmd.trans_le (hg2.le.trans hk3.le)
      have hlo3 := hlo.trans hg2.cursor
      show Follows _ _ _ ((gettoken line.length >>= _).run st1)
      rw [bind_ok hget]
      dsimp only
      rw [hcode, if_neg (by decide), if_neg (not_not.mpr rfl), bind_ok hset, Tokens.args]
      by_cases hmax : ws.length + 1 ≥ maxargs
      case pos =>
        rw [if_pos hmax, if_pos hmax]
        exact .error _ _
      case neg =>
        rw [if_neg hmax, if_neg hmax]
        refine (parseredirs_follows hzero (h2.store node) (hfilled3.lt hcmd3)).bind fun r ret4 st4 hr => ?_
        obtain ⟨hg4, h4, hwrapped4⟩ := hr
        have hlen : (ws ++ [text line (q, e)]).length = ws.length + 1 := List.length_append
        have hnext := ih h4 (hcmd3.trans_le hg4.le) (hlen.trans_lt (Nat.lt_of_not_le hmax)) (hlo3.trans hg4.cursor)
          (hfilled3.wrap hcmd3 hg4 hwrapped4 hlo3 hg4.cursor)
        rw [hlen] at hnext
        have hkeeps := ((hg2.weaken hcmd.le).trans hk3).trans (hg4.weaken hcmd3.le)
        exact hnext.map fun r' a st' hr' => ⟨_, rfl, hr'.cons hkeeps⟩
    | lparen =>
      show Follows _ _ _ ((gettoken line.length >>= _).run st1)
      rw [bind_ok hget]
      exact hpanic
    | redir op =>
      cases op
      all_goals
        show Follows _ _ _ ((gettoken line.length >>= _).run st1)
        rw [bind_ok hget]
        exact hpanic
    | _ => exact hdone

/-! ### Commands -/

/-- A tree has been built from the tokens taken. -/
def Built (line : List UInt8) (st : State) (r : Cmd (List UInt8) × List Token) (p : Nat) (st' : State) : Prop :=
  Grows st st' ∧ st'.Reads line r.2 ∧ st'.Stored line st.s st'.s p r.1

/-- Redirections behind a block. -/
theorem State.Stored.wrap (h : st.Stored line lo mid cmd t) (hrs : st.Wrapped line mid hi cmd rs ret) (hlo : lo ≤ mid)
    (hhi : mid ≤ hi) : st.Stored line lo hi ret (wrap rs t) := by
  obtain ⟨c, hc, hwords, horder, rfl⟩ := h
  obtain ⟨rs', hchain, hfiles, hlaid, rfl⟩ := hrs
  have hbefore : ∀ w ∈ c.words, ∀ r ∈ rs', Before w r.file := fun w hw r hr =>
    (hwords w hw).2.before (hlaid.within _ (List.mem_map_of_mem hr))
  refine ⟨Sh.wrap rs' c, hchain.tree hc, ?_, ?_, map_wrap ..⟩
  · rw [words_wrap]
    refine List.forall_mem_append.mpr ⟨fun w hw => ⟨(hwords w hw).1, (hwords w hw).2.mono le_rfl hhi⟩,
      fun w hw => ⟨?_, (hlaid.within w hw).mono hlo le_rfl⟩⟩
    obtain ⟨r, hr, rfl⟩ := List.mem_map.mp hw
    exact hfiles r hr
  · exact horder.wrap hlaid.order (fun w hw => hbefore w (Cmd.outer_subset hw))
      fun w hw r hr => .inl (hbefore w hw r hr)

/-- The exec node is complete when the slot after the last word has been cleared. -/
theorem State.Filled.stored (h : st.Filled line lo hi cmd ws rs ret) (hcmd : cmd < st.i) (hlt : ws.length < maxargs) :
    ∃ node, (setArg cmd ws.length none none).run st = .ok () (st.store cmd node) ∧
      (st.store cmd node).Stored line lo hi ret (Sh.wrap rs (.exec ws)) := by
  obtain ⟨ws', rs', hnode, hchain, hwords, hfiles, hlaid, hlaid', hapart, rfl, rfl⟩ := h
  rw [List.length_map] at hlt ⊢
  obtain ⟨node, hnode'⟩ : ∃ node : Node, node = .execcmd (slots (ws'.map Prod.fst)) (slots (ws'.map Prod.snd)) :=
    ⟨_, rfl⟩
  have hstore : (setArg cmd ws'.length none none).run st = .ok () (st.store cmd node) := by
    rw [setArg_run hnode hlt, hnode', ← List.length_map Prod.fst, slots_set_none _ (by rwa [List.length_map]),
      List.length_map, ← List.length_map Prod.snd, slots_set_none _ (by rwa [List.length_map])]
  have hexec : IsTree (st.store cmd node).mem (st.store cmd node).i cmd (.exec ws') :=
    .exec hcmd hlt ((update_self ..).trans (congrArg some hnode'))
  have hchain' : Chain (st.store cmd node).mem (st.store cmd node).i cmd rs' ret :=
    hchain.mono le_rfl fun x _ hx => update_of_ne hx.ne' ..
  refine ⟨node, hstore, Sh.wrap rs' (.exec ws'), hchain'.tree hexec, ?_, ?_, map_wrap ..⟩
  · rw [words_wrap]
    refine List.forall_mem_append.mpr ⟨fun w hw => ⟨hwords w hw, hlaid.within w hw⟩,
      fun w hw => ⟨?_, hlaid'.within w hw⟩⟩
    obtain ⟨r, hr, rfl⟩ := List.mem_map.mp hw
    exact hfiles r hr
  · exact Cmd.InOrder.wrap (c := .exec ws') hlaid.order hlaid'.order (fun w hw => absurd hw List.not_mem_nil) hapart

/-- The words of the command are before the cursor already. -/
theorem parsebacks_follows (hzero : ∀ c ∈ line, c ≠ 0) (h : st.Reads line ts) (hcmd : st.Stored line lo hi cmd t) :
    Follows OutOfMemory
      (fun r p st' => Grows st st' ∧ st'.Reads line r.2 ∧ st'.Stored line lo hi p (Cmd.back^[r.1] t))
      (Tokens.backs n ts) ((parsebacks line.length n cmd).run st) := by
  induction n generalizing ts st cmd t with
  | zero => exact .error Stop.hang st
  | succ n ih =>
    obtain ⟨st1, hpeek, hm1, h1⟩ := peek_run h hzero [byte '&'] (by decide +kernel)
    have hdone : Follows OutOfMemory
        (fun r p st' => Grows st st' ∧ st'.Reads line r.2 ∧ st'.Stored line lo hi p (Cmd.back^[r.1] t)) (.ok (0, ts))
        (.ok cmd st1) := .ok ⟨hm1.grows, h1, hcmd.grows hm1.grows⟩
    rw [parsebacks, bind_ok hpeek]
    rcases ts with _ | ⟨t, ts⟩
    case nil => exact hdone
    cases t with
    | amp =>
      obtain ⟨q, e, st2, hget, hm2, h2⟩ := gettoken_cons hzero h1
      have hg2 := hm1.grows.trans hm2.grows
      show Follows _ _ _ ((gettoken line.length >>= _).run st1)
      rw [bind_ok hget]
      refine Follows.skip (newcmd_ends h2 (by decide) _) fun p st3 hnew => ?_
      obtain ⟨hg3, h3, hle, hlt, hnode⟩ := hnew
      have hg := hg2.trans hg3
      refine (ih h3 ((hcmd.grows hg).back hlt hnode)).map fun r p' st' hr => ⟨_, rfl, hg.trans hr.1, hr.2⟩
    | redir op => cases op <;> exact hdone
    | _ => exact hdone

/-- Wherever it starts, the function builds the tree that its counterpart finds. -/
def Simulates (line : List UInt8) (y : List Token → Except Stop (Cmd (List UInt8) × List Token)) (x : P Nat) : Prop :=
  ∀ st ts, st.Reads line ts → Follows OutOfMemory (Built line st) (y ts) (x.run st)

theorem peeks_lparen (h : ∀ ts', ts ≠ .lparen :: ts') : peeks [byte '('] ts = false := by
  rcases ts with _ | ⟨t, ts⟩
  case nil => rfl
  cases t with
  | lparen => exact absurd rfl (h ts)
  | redir op => cases op <;> rfl
  | _ => rfl

section Steps
variable (hzero : ∀ c ∈ line, c ≠ 0)
include hzero

theorem parseline_step (hpipe : Simulates line (Tokens.pipe n) (parsepipe line.length n))
    (hline : Simulates line (Tokens.line n) (parseline line.length n)) :
    Simulates line (Tokens.line (n + 1)) (parseline line.length (n + 1)) := by
  intro st ts h
  rw [Tokens.line, parseline]
  refine (hpipe st ts h).bind fun r cmd st1 hr => ?_
  obtain ⟨hg1, h1, hc1⟩ := hr
  refine (parsebacks_follows hzero h1 hc1).bind fun k cmd st2 hk => ?_
  obtain ⟨hg2, h2, hc2⟩ := hk
  obtain ⟨k, ts⟩ := k
  obtain ⟨st3, hpeek, hm3, h3⟩ := peek_run h2 hzero [byte ';'] (by decide +kernel)
  have hg3 := (hg1.trans hg2).trans hm3.grows
  have hdone : Follows OutOfMemory (Built line st) (.ok (Cmd.back^[k] r.1, ts)) (.ok cmd st3) :=
    .ok ⟨hg3, h3, (hc2.grows hm3.grows).mono le_rfl (hg2.trans hm3.grows).cursor⟩
  rw [bind_ok hpeek]
  rcases ts with _ | ⟨t, ts⟩
  case nil => exact hdone
  cases t with
  | semi =>
    obtain ⟨q, e, st4, hget, hm4, h4⟩ := gettoken_cons hzero h3
    show Follows _ _ (Tokens.line n ts >>= _) ((gettoken line.length >>= _).run st3)
    rw [bind_ok hget]
    refine (hline st4 ts h4).bind fun r' right st5 hr' => ?_
    obtain ⟨hg5, h5, hd⟩ := hr'
    refine Follows.of_ends (newcmd_ends h5 (by decide) _) fun p st6 hnew => ?_
    obtain ⟨hg6, h6, -, hlt, hnode⟩ := hnew
    have hg24 := hm3.grows.trans hm4.grows
    have hg26 := (hg24.trans hg5).trans hg6
    have hleft := (hc2.grows hg26).mono le_rfl (hg2.trans hg24).cursor
    have hright := (hd.grows hg6).mono le_rfl hg6.cursor
    exact ⟨(hg1.trans hg2).trans hg26, h6,
      hleft.list hlt hright ((hg1.trans hg2).trans hg24).cursor (hg5.trans hg6).cursor hnode⟩
  | redir op => cases op <;> exact hdone
  | _ => exact hdone

theorem parsepipe_step (hexec : Simulates line (Tokens.exec n) (parseexec line.length n))
    (hpipe : Simulates line (Tokens.pipe n) (parsepipe line.length n)) :
    Simulates line (Tokens.pipe (n + 1)) (parsepipe line.length (n + 1)) := by
  intro st ts h
  rw [Tokens.pipe, parsepipe]
  refine (hexec st ts h).bind fun r cmd st1 hr => ?_
  obtain ⟨c, ts⟩ := r
  obtain ⟨hg1, h1, hc1⟩ := hr
  obtain ⟨st2, hpeek, hm2, h2⟩ := peek_run h1 hzero [byte '|'] (by decide +kernel)
  have hdone : Follows OutOfMemory (Built line st) (.ok (c, ts)) (.ok cmd st2) :=
    .ok ⟨hg1.trans hm2.grows, h2, (hc1.grows hm2.grows).mono le_rfl hm2.grows.cursor⟩
  rw [bind_ok hpeek]
  rcases ts with _ | ⟨t, ts⟩
  case nil => exact hdone
  cases t with
  | bar =>
    obtain ⟨q, e, st3, hget, hm3, h3⟩ := gettoken_cons hzero h2
    show Follows _ _ (Tokens.pipe n ts >>= _) ((gettoken line.length >>= _).run st2)
    rw [bind_ok hget]
    refine (hpipe st3 ts h3).bind fun r' right st4 hr' => ?_
    obtain ⟨hg4, h4, hd⟩ := hr'
    refine Follows.of_ends (newcmd_ends h4 (by decide) _) fun p st5 hnew => ?_
    obtain ⟨hg5, h5, -, hlt, hnode⟩ := hnew
    have hg13 := hm2.grows.trans hm3.grows
    have hg15 := (hg13.trans hg4).trans hg5
    have hleft := (hc1.grows hg15).mono le_rfl hg13.cursor
    have hright := (hd.grows hg5).mono le_rfl hg5.cursor
    exact ⟨hg1.trans hg15, h5, hleft.pipe hlt hright (hg1.trans hg13).cursor (hg4.trans hg5).cursor hnode⟩
  | redir op => cases op <;> exact hdone
  | _ => exact hdone

theorem parseblock_step (hline : Simulates line (Tokens.line n) (parseline line.length n)) :
    Simulates line (Tokens.block (n + 1)) (parseblock line.length (n + 1)) := by
  intro st ts h
  obtain ⟨st1, hpeek, hm1, h1⟩ := peek_run h hzero [byte '('] (by decide +kernel)
  have hpanic : Follows OutOfMemory (Built line st) (.error (.panic "parseblock"))
      (.error (.panic "parseblock") st1) := .error _ _
  rw [parseblock, bind_ok hpeek]
  rcases ts with _ | ⟨t, ts⟩
  case nil => exact hpanic
  cases t with
  | lparen =>
    obtain ⟨q, e, st2, hget, hm2, h2⟩ := gettoken_cons hzero h1
    show Follows _ _ (Tokens.line n ts >>= _) ((gettoken line.length >>= _).run st1)
    rw [bind_ok hget]
    refine (hline st2 ts h2).bind fun r cmd st3 hr => ?_
    obtain ⟨c, ts⟩ := r
    obtain ⟨hg3, h3, hc3⟩ := hr
    obtain ⟨st4, hpeek', hm4, h4⟩ := peek_run h3 hzero [byte ')'] (by decide +kernel)
    have hmissing : Follows OutOfMemory (Built line st) (.error (.panic "syntax - missing )"))
        (.error (.panic "syntax - missing )") st4) := .error _ _
    rw [bind_ok hpeek']
    rcases ts with _ | ⟨t, ts⟩
    case nil => exact hmissing
    cases t with
    | rparen =>
      obtain ⟨q', e', st5, hget', hm5, h5⟩ := gettoken_cons hzero h4
      have hg5 := hm4.grows.trans hm5.grows
      show Follows _ _ (Tokens.redirs n ts >>= _) ((gettoken line.length >>= _).run st4)
      rw [bind_ok hget']
      refine (parseredirs_follows hzero h5 (hc3.grows hg5).lt).map fun r ret st6 hr => ⟨_, rfl, ?_⟩
      obtain ⟨hg6, h6, hwrapped⟩ := hr
      have hg2 := hm1.grows.trans hm2.grows
      have hblock := ((hc3.grows hg5).grows hg6).mono hg2.cursor hg5.cursor
      have hg := (hg2.trans hg3).trans hg5
      exact ⟨hg.trans hg6, h6, hblock.wrap hwrapped hg.cursor hg6.cursor⟩
    | redir op => cases op <;> exact hmissing
    | _ => exact hmissing
  | redir op => cases op <;> exact hpanic
  | _ => exact hpanic

theorem parseexec_step (hblock : Simulates line (Tokens.block n) (parseblock line.length n)) :
    Simulates line (Tokens.exec (n + 1)) (parseexec line.length (n + 1)) := by
  intro st ts h
  obtain ⟨st1, hpeek, hm1, h1⟩ := peek_run h hzero [byte '('] (by decide +kernel)
  rw [parseexec, bind_ok hpeek]
  by_cases hparen : ∃ ts', ts = .lparen :: ts'
  case pos =>
    obtain ⟨ts, rfl⟩ := hparen
    refine (hblock st1 _ h1).mono fun r p st' hr => ?_
    exact ⟨hm1.grows.trans hr.1, hr.2.1, hr.2.2.mono hm1.grows.cursor le_rfl⟩
  case neg =>
    rw [Tokens.exec_simple fun ts' he => hparen ⟨ts', he⟩, peeks_lparen fun ts' he => hparen ⟨ts', he⟩,
      if_neg Bool.false_ne_true]
    refine Follows.skip (newcmd_ends h1 (by decide) _) fun cmd st2 hnew => ?_
    obtain ⟨hg2, h2, hle, hlt, hnode⟩ := hnew
    have hfilled : st2.Filled line st2.s st2.s cmd [] [] cmd :=
      ⟨[], [], hnode, .nil cmd, fun _ hw => absurd hw List.not_mem_nil, fun _ hr => absurd hr List.not_mem_nil, .nil,
        .nil, fun _ hw => absurd hw List.not_mem_nil, rfl, rfl⟩
    refine (parseredirs_follows hzero h2 hlt).bind fun r ret st3 hr => ?_
    obtain ⟨hg3, h3, hwrapped⟩ := hr
    have hlt3 := hlt.trans_le hg3.le
    have hfilled3 := hfilled.wrap hlt hg3 hwrapped le_rfl hg3.cursor
    rw [List.nil_append] at hfilled3
    refine (parseargs_follows hzero h3 hlt3 (by decide) hg3.cursor hfilled3).bind fun a b st4 hext => ?_
    obtain ⟨argc, ret⟩ := b
    obtain ⟨hkeeps, h4, hargc, hargc_lt, hfilled4⟩ := hext
    dsimp only at hargc
    subst hargc
    obtain ⟨node, hset, hstored⟩ := hfilled4.stored (hlt3.trans_le hkeeps.le) hargc_lt
    have hk := ((hg3.weaken hlt.le).trans hkeeps).trans (keeps_store node st4 cmd)
    have hg12 := hm1.grows.trans hg2
    dsimp only
    rw [bind_ok hset]
    exact .ok ⟨Keeps.trans hg12 (hk.weaken (hm1.grows.le.trans hle)), h4.store node,
      hstored.mono hg12.cursor le_rfl⟩

/-- **The parser follows the one on tokens.** -/
theorem parseline_simulates : Simulates line (Tokens.line n) (parseline line.length n) := by
  have hall : Simulates line (Tokens.line n) (parseline line.length n) ∧
      Simulates line (Tokens.pipe n) (parsepipe line.length n) ∧
      Simulates line (Tokens.block n) (parseblock line.length n) ∧
      Simulates line (Tokens.exec n) (parseexec line.length n) := by
    induction n with
    | zero => refine ⟨?_, ?_, ?_, ?_⟩ <;> exact fun st ts h => .error Stop.hang st
    | succ n ih =>
      obtain ⟨hline, hpipe, hblock, hexec⟩ := ih
      exact ⟨parseline_step hzero hpipe hline, parsepipe_step hzero hexec hpipe, parseblock_step hzero hline,
        parseexec_step hzero hblock⟩
  exact hall.1

end Steps

end OS2021.User.Sh
