/-
  WfbYa.Net.NetInet — the sockets of the reload hooks (`net_inet.c`, `netcore_wdt`).

  Each context closes its socket and opens another, in every round that is asked for, until
  all hooks succeed. What a failed call leaves open nobody closes: it is no context's.

  - `func_owned`, `func_stray`: one hook.
  - `runHooks_owned`, `runHooks_stray`: one round.
  - `socket_ownership_iff`: a failed call, and any run of rounds.
-/

import WfbYa.Net.UtilInet
import Mathlib.Data.List.Perm.Basic

namespace WfbYa.Net

/-! ## The hooks -/

/-- `struct netinet_rx_context`; `rx_sock` is `none` for -1, `rx_ev` whether there is one. -/
structure NetinetRxContext where
  dev : String
  rxSock : Option Nat
  rxEv : Bool

structure NetinetTxContext where
  dev : String
  txSock : Option Nat

def Kernel.err (k : Kernel) (msg : String) : Kernel := { k with errs := k.errs ++ [msg] }

/-- The context's socket is closed, if it has one. -/
def closeOwn (sock : Option Nat) (k : Kernel) : Kernel :=
  match sock with
  | some fd => closeSocket fd k
  | none => k

/-- The context afterwards, and whether it has a socket. -/
def netinetRxSocketOpen (env : InetEnv) (ctx : NetinetRxContext) (k : Kernel) : (NetinetRxContext × Bool) × Kernel :=
  match inetRxSocket env ctx.dev (closeOwn ctx.rxSock k) with
  | (none, k) => (({ ctx with rxSock := none, rxEv := false }, false), k.err "failed to create socket.\n")
  | (some s, k) =>
    match (sysCheck env.eventNew).orErr "Cannot initialize event.\n" k with
    | (some (), k) => (({ ctx with rxSock := some s, rxEv := true }, true), k)
    | (none, k) => (({ ctx with rxSock := none, rxEv := false }, false), closeSocket s (k.err "Cannot register inet event.\n"))

def netinetTxSocketOpen (env : InetEnv) (ctx : NetinetTxContext) (k : Kernel) : (NetinetTxContext × Bool) × Kernel :=
  match inetTxSocket env ctx.dev (closeOwn ctx.txSock k) with
  | (none, k) => (({ ctx with txSock := none }, false), k.err "inet_tx_socket() failed.\n")
  | (some s, k) => (({ ctx with txSock := some s }, true), k)

/-- A registered hook, with its context. -/
inductive ReloadHook where
  | rx (ctx : NetinetRxContext)
  | tx (ctx : NetinetTxContext)

def ReloadHook.func (env : InetEnv) : ReloadHook → Kernel → (ReloadHook × Bool) × Kernel
  | .rx ctx, k =>
    let r := netinetRxSocketOpen env ctx k
    ((.rx r.1.1, r.1.2), r.2)
  | .tx ctx, k =>
    let r := netinetTxSocketOpen env ctx k
    ((.tx r.1.1, r.1.2), r.2)

def ReloadHook.sock : ReloadHook → Option Nat
  | .rx ctx => ctx.rxSock
  | .tx ctx => ctx.txSock

/-! ## netcore_wdt -/

/-- `struct netcore_context`, and what the process holds. -/
structure NetcoreState where
  reload : Bool
  hooks : List ReloadHook
  kernel : Kernel

/-- The loop over the hooks: the hooks afterwards, and whether one failed. -/
def runHooks (env : InetEnv) : List ReloadHook → Kernel → (List ReloadHook × Bool) × Kernel
  | [], k => (([], false), k)
  | hook :: hooks, k =>
    let r := hook.func env k
    let rest := runHooks env hooks r.2
    ((r.1.1 :: rest.1.1, !r.1.2 || rest.1.2), rest.2)

def netcoreWdt (env : InetEnv) (st : NetcoreState) : NetcoreState :=
  if st.reload then
    let r := runHooks env st.hooks st.kernel
    ⟨r.1.2, r.1.1, r.2⟩
  else st

/-- A round is asked for (`netcore_hup`, `netcore_reload`); the timer of one second. -/
inductive NetcoreEv where
  | reload
  | wdt
  deriving DecidableEq

def netcoreStep (env : InetEnv) (st : NetcoreState) : NetcoreEv → NetcoreState
  | .reload => { st with reload := true }
  | .wdt => netcoreWdt env st

def netcoreRun (env : InetEnv) (st : NetcoreState) (evs : List NetcoreEv) : NetcoreState := evs.foldl (netcoreStep env) st

/-! ## Who owns the sockets -/

/-- These sockets are open, each once, and no others; no address list is held. -/
structure OwnedBy (k : Kernel) (socks : List Nat) : Prop where
  perm : k.opened.Perm socks
  distinct : k.opened.Nodup
  freed : k.infos = []

/-- An open socket that is none of these. -/
def Stray (k : Kernel) (socks : List Nat) : Prop := ∃ fd ∈ k.opened, fd ∉ socks

/-- The open sockets are the contexts', one each at most. -/
def Owned (st : NetcoreState) : Prop := OwnedBy st.kernel (st.hooks.filterMap ReloadHook.sock)

variable {env : InetEnv} {k k' : Kernel} {socks socks' others : List Nat} {hook : ReloadHook} {hooks : List ReloadHook}
  {st : NetcoreState} {evs : List NetcoreEv}

theorem OwnedBy.congr (h : OwnedBy k socks) (hp : socks.Perm socks') : OwnedBy k socks' := ⟨h.perm.trans hp, h.distinct, h.freed⟩

theorem OwnedBy.not_stray (h : OwnedBy k socks) : ¬ Stray k socks := fun ⟨_, hmem, hno⟩ => hno (h.perm.mem_iff.mp hmem)

theorem Stray.congr (h : Stray k socks) (hp : socks.Perm socks') : Stray k socks' := by
  obtain ⟨fd, hmem, hno⟩ := h
  exact ⟨fd, hmem, fun hin => hno (hp.mem_iff.mpr hin)⟩

/-- However many rounds there were. -/
theorem Owned.bounded (h : Owned st) : st.kernel.opened.length ≤ st.hooks.length := by
  rw [h.perm.length_eq]
  exact List.length_filterMap_le ..

theorem OwnedBy.opened_eq (h : OwnedBy k socks) (ho : k'.opened = k.opened) (hi : k'.infos = k.infos) : OwnedBy k' socks :=
  ⟨ho ▸ h.perm, ho ▸ h.distinct, hi.trans h.freed⟩

theorem OwnedBy.close {fd : Nat} (h : OwnedBy k (fd :: others)) : OwnedBy (closeSocket fd k) others where
  perm := by
    have := h.perm.erase fd
    rwa [List.erase_cons_head] at this
  distinct := h.distinct.erase fd
  freed := h.freed

theorem OwnedBy.open {fd : Nat} (h : OwnedBy k socks) (hfd : fd ∉ k.opened) (ho : k'.opened = fd :: k.opened)
    (hi : k'.infos = k.infos) : OwnedBy k' (fd :: socks) where
  perm := by
    rw [ho]
    exact h.perm.cons fd
  distinct := by
    rw [ho]
    exact List.nodup_cons.mpr ⟨hfd, h.distinct⟩
  freed := hi.trans h.freed

theorem OwnedBy.closeOwn {sock : Option Nat} (h : OwnedBy k (sock.toList ++ others)) : OwnedBy (closeOwn sock k) others := by
  cases sock with
  | none => exact h
  | some fd => exact h.close

theorem Stray.close {fd : Nat} (h : Stray k (fd :: others)) : Stray (closeSocket fd k) others := by
  obtain ⟨fd', hmem, hno⟩ := h
  rw [List.mem_cons, not_or] at hno
  exact ⟨fd', (List.mem_erase_of_ne hno.1).mpr hmem, hno.2⟩

theorem Stray.open {fd : Nat} (h : Stray k socks) (hfd : fd ∉ k.opened) (ho : k'.opened = fd :: k.opened) :
    Stray k' (fd :: socks) := by
  obtain ⟨fd', hmem, hno⟩ := h
  refine ⟨fd', ho ▸ List.mem_cons_of_mem fd hmem, ?_⟩
  rw [List.mem_cons, not_or]
  exact ⟨fun heq => hfd (heq ▸ hmem), hno⟩

theorem Stray.closeOwn {sock : Option Nat} (h : Stray k (sock.toList ++ others)) : Stray (closeOwn sock k) others := by
  cases sock with
  | none => exact h
  | some fd => exact h.close

/-! ## One hook -/

/-- The hook's call creates a socket that cannot be set up. -/
def ReloadHook.fails (env : InetEnv) (hook : ReloadHook) (k : Kernel) : Bool :=
  match hook with
  | .rx ctx => rxSetup.fails env ctx.dev (closeOwn ctx.rxSock k)
  | .tx ctx => txSetup.fails env ctx.dev (closeOwn ctx.txSock k)

/-- What a hook does once its own socket is closed: `leaks` as in `SocketCall`. -/
inductive HookCall (k : Kernel) : Bool → Option Nat → Kernel → Prop
  | none {k' : Kernel} : k'.opened = k.opened → k'.infos = k.infos → HookCall k false .none k'
  | leaked {k' : Kernel} {fd : Nat} : fd ∉ k.opened → k'.opened = fd :: k.opened → HookCall k true .none k'
  | made {k' : Kernel} {fd : Nat} : fd ∉ k.opened → k'.opened = fd :: k.opened → k'.infos = k.infos →
      HookCall k false (some fd) k'

theorem rxOpen_cases (env : InetEnv) (ctx : NetinetRxContext) (k : Kernel) :
    HookCall (closeOwn ctx.rxSock k) (rxSetup.fails env ctx.dev (closeOwn ctx.rxSock k))
    (netinetRxSocketOpen env ctx k).1.1.rxSock
      (netinetRxSocketOpen env ctx k).2 := by
  have hcall := inetSocket_cases rxSetup_kept env ctx.dev (closeOwn ctx.rxSock k)
  unfold netinetRxSocketOpen inetRxSocket
  generalize inetSocket rxSetup env ctx.dev (closeOwn ctx.rxSock k) = r at hcall ⊢
  generalize rxSetup.fails env ctx.dev (closeOwn ctx.rxSock k) = b at hcall ⊢
  obtain ⟨o, k1⟩ := r
  cases hcall with
  | released ho hi => exact .none ho hi
  | leaked hfd ho => exact .leaked hfd ho
  | @made _ fd hfd ho hi =>
    have hko := (keeps_check env.eventNew "Cannot initialize event.\n").opened k1
    have hki := (keeps_check env.eventNew "Cannot initialize event.\n").infos k1
    dsimp only
    cases hev : (sysCheck env.eventNew).orErr "Cannot initialize event.\n" k1 with
    | mk o k2 =>
      rw [hev] at hko hki
      cases o with
      | some u => exact .made hfd (hko.trans ho) (hki.trans hi)
      | none =>
        refine .none ?_ (hki.trans hi)
        show k2.opened.erase fd = _
        rw [show k2.opened = _ from hko.trans ho, List.erase_cons_head]

theorem txOpen_cases (env : InetEnv) (ctx : NetinetTxContext) (k : Kernel) :
    HookCall (closeOwn ctx.txSock k) (txSetup.fails env ctx.dev (closeOwn ctx.txSock k))
    (netinetTxSocketOpen env ctx k).1.1.txSock
      (netinetTxSocketOpen env ctx k).2 := by
  have hcall := inetSocket_cases txSetup_kept env ctx.dev (closeOwn ctx.txSock k)
  unfold netinetTxSocketOpen inetTxSocket
  generalize inetSocket txSetup env ctx.dev (closeOwn ctx.txSock k) = r at hcall ⊢
  generalize txSetup.fails env ctx.dev (closeOwn ctx.txSock k) = b at hcall ⊢
  obtain ⟨o, k1⟩ := r
  cases hcall with
  | released ho hi => exact .none ho hi
  | leaked hfd ho => exact .leaked hfd ho
  | made hfd ho hi => exact .made hfd ho hi

theorem func_cases (env : InetEnv) (hook : ReloadHook) (k : Kernel) :
    HookCall (closeOwn hook.sock k) (hook.fails env k) (hook.func env k).1.1.sock (hook.func env k).2 := by
  cases hook with
  | rx ctx => exact rxOpen_cases env ctx k
  | tx ctx => exact txOpen_cases env ctx k

theorem func_owned (h : OwnedBy k (hook.sock.toList ++ others)) (hok : hook.fails env k = false) :
    OwnedBy (hook.func env k).2 ((hook.func env k).1.1.sock.toList ++ others) := by
  have hclosed := h.closeOwn
  have hcall := func_cases env hook k
  rw [hok] at hcall
  generalize (hook.func env k).1.1.sock = o at hcall ⊢
  cases hcall with
  | none ho hi => exact hclosed.opened_eq ho hi
  | made hfd ho hi => exact hclosed.open hfd ho hi

theorem func_leaks (h : OwnedBy k (hook.sock.toList ++ others)) (hfail : hook.fails env k = true) :
    Stray (hook.func env k).2 ((hook.func env k).1.1.sock.toList ++ others) := by
  have hclosed := h.closeOwn
  have hcall := func_cases env hook k
  rw [hfail] at hcall
  generalize (hook.func env k).1.1.sock = o at hcall ⊢
  cases hcall with
  | @leaked _ fd hfd ho => exact ⟨fd, ho ▸ List.mem_cons_self, fun hin => hfd (hclosed.perm.mem_iff.mpr hin)⟩

/-- A stray socket stays. -/
theorem func_stray (h : Stray k (hook.sock.toList ++ others)) :
    Stray (hook.func env k).2 ((hook.func env k).1.1.sock.toList ++ others) := by
  obtain ⟨fd', hmem, hno⟩ := h.closeOwn
  have hcall := func_cases env hook k
  generalize (hook.func env k).1.1.sock = o at hcall ⊢
  generalize hook.fails env k = b at hcall
  cases hcall with
  | none ho => exact ⟨fd', ho ▸ hmem, hno⟩
  | leaked _ ho => exact ⟨fd', ho ▸ List.mem_cons_of_mem _ hmem, hno⟩
  | made hfd ho => exact Stray.open ⟨fd', hmem, hno⟩ hfd ho

/-! ## One round -/

/-- No hook's call, one after the other, creates a socket that cannot be set up. -/
def HooksClean (env : InetEnv) : List ReloadHook → Kernel → Prop
  | [], _ => True
  | hook :: hooks, k => hook.fails env k = false ∧ HooksClean env hooks (hook.func env k).2

/-- A hook's socket among those of the hooks behind it. -/
theorem socks_rotate (o : Option Nat) (l others : List Nat) : (o.toList ++ (l ++ others)).Perm (l ++ (o.toList ++ others)) := by
  rw [← List.append_assoc, ← List.append_assoc]
  exact List.perm_append_comm.append_right others

theorem filterMap_sock (hook : ReloadHook) (hooks : List ReloadHook) :
    (hook :: hooks).filterMap ReloadHook.sock = hook.sock.toList ++ hooks.filterMap ReloadHook.sock := by
  rw [List.filterMap_cons]
  cases hook.sock <;> rfl

theorem runHooks_cons : runHooks env (hook :: hooks) k =
    (((hook.func env k).1.1 :: (runHooks env hooks (hook.func env k).2).1.1,
      !(hook.func env k).1.2 || (runHooks env hooks (hook.func env k).2).1.2), (runHooks env hooks (hook.func env k).2).2) := rfl

theorem runHooks_owned (h : OwnedBy k (hooks.filterMap ReloadHook.sock ++ others)) (hclean : HooksClean env hooks k) :
    OwnedBy (runHooks env hooks k).2 ((runHooks env hooks k).1.1.filterMap ReloadHook.sock ++ others) := by
  induction hooks generalizing k others with
  | nil => exact h
  | cons hook hooks ih =>
    rw [filterMap_sock, List.append_assoc] at h
    have hrest := ih ((func_owned h hclean.1).congr (socks_rotate ..)) hclean.2
    rw [runHooks_cons, filterMap_sock, List.append_assoc]
    exact hrest.congr (socks_rotate ..).symm

theorem runHooks_stray (h : Stray k (hooks.filterMap ReloadHook.sock ++ others)) :
    Stray (runHooks env hooks k).2 ((runHooks env hooks k).1.1.filterMap ReloadHook.sock ++ others) := by
  induction hooks generalizing k others with
  | nil => exact h
  | cons hook hooks ih =>
    rw [filterMap_sock, List.append_assoc] at h
    have hrest := ih ((@func_stray env _ _ _ h).congr (socks_rotate ..))
    rw [runHooks_cons, filterMap_sock, List.append_assoc]
    exact hrest.congr (socks_rotate ..).symm

theorem runHooks_leaks (h : OwnedBy k (hooks.filterMap ReloadHook.sock ++ others)) (hclean : ¬ HooksClean env hooks k) :
    Stray (runHooks env hooks k).2 ((runHooks env hooks k).1.1.filterMap ReloadHook.sock ++ others) := by
  induction hooks generalizing k others with
  | nil => exact absurd trivial hclean
  | cons hook hooks ih =>
    rw [filterMap_sock, List.append_assoc] at h
    rw [runHooks_cons, filterMap_sock, List.append_assoc]
    refine Stray.congr ?_ (socks_rotate ..).symm
    cases hfail : hook.fails env k with
    | true => exact runHooks_stray ((func_leaks h hfail).congr (socks_rotate ..))
    | false => exact ih ((func_owned h hfail).congr (socks_rotate ..)) fun hrest => hclean ⟨hfail, hrest⟩

/-- The step is no round, or a clean one. -/
def CleanStep (env : InetEnv) (st : NetcoreState) (ev : NetcoreEv) : Prop :=
  ev = .wdt → st.reload = true → HooksClean env st.hooks st.kernel

theorem netcoreStep_owned_iff (h : Owned st) (ev : NetcoreEv) : Owned (netcoreStep env st ev) ↔ CleanStep env st ev := by
  cases ev with
  | reload =>
    refine ⟨fun _ => ?_, fun _ => h⟩
    intro hev
    cases hev
  | wdt =>
    have h' : OwnedBy st.kernel (st.hooks.filterMap ReloadHook.sock ++ []) := by rwa [List.append_nil]
    unfold CleanStep
    show Owned (netcoreWdt env st) ↔ _
    unfold netcoreWdt
    by_cases hr : st.reload = true
    · rw [if_pos hr]
      unfold Owned
      dsimp only
      constructor
      · intro howned _ _
        by_contra hclean
        have hstray := runHooks_leaks h' hclean
        rw [List.append_nil] at hstray
        exact howned.not_stray hstray
      · intro hclean
        have howned := runHooks_owned h' (hclean rfl hr)
        rwa [List.append_nil] at howned
    · rw [if_neg hr]
      exact ⟨fun _ _ hr' => absurd hr' hr, fun _ => h⟩

/-! ## Any run -/

def CleanRun (env : InetEnv) : NetcoreState → List NetcoreEv → Prop
  | _, [] => True
  | st, ev :: evs => CleanStep env st ev ∧ CleanRun env (netcoreStep env st ev) evs

theorem netcoreRun_owned_iff (h : Owned st) : (∀ pre, pre <+: evs → Owned (netcoreRun env st pre)) ↔ CleanRun env st evs := by
  induction evs generalizing st with
  | nil =>
    refine ⟨fun _ => trivial, fun _ pre hpre => ?_⟩
    rw [List.prefix_nil.mp hpre]
    exact h
  | cons ev evs ih =>
    have hstep := @netcoreStep_owned_iff env st h ev
    constructor
    · intro hall
      have howned : Owned (netcoreStep env st ev) := hall [ev] ⟨evs, rfl⟩
      refine ⟨hstep.mp howned, (ih howned).mp fun pre hpre => ?_⟩
      exact hall (ev :: pre) (List.cons_prefix_cons.mpr ⟨rfl, hpre⟩)
    · intro ⟨hclean, hrest⟩ pre hpre
      have howned := hstep.mpr hclean
      cases pre with
      | nil => exact h
      | cons ev' pre =>
        obtain ⟨rfl, hpre'⟩ := List.cons_prefix_cons.mp hpre
        exact (ih howned).mpr hrest pre hpre'

/-- A failed call releases what it took exactly if it did not fail on a socket of its own; and
    the contexts own the open sockets throughout exactly if no hook's call did. -/
theorem socket_ownership_iff (env : InetEnv) (h : Owned st) (evs : List NetcoreEv) :
    (∀ sDev k, Releases k (inetRxSocket env sDev k) ↔ rxSetup.fails env sDev k = false) ∧
      (∀ sDev k, Releases k (inetTxSocket env sDev k) ↔ txSetup.fails env sDev k = false) ∧
      ((∀ pre, pre <+: evs → Owned (netcoreRun env st pre)) ↔ CleanRun env st evs) :=
  ⟨fun sDev k => inetSocket_releases_iff rxSetup_kept env sDev k, fun sDev k => inetSocket_releases_iff txSetup_kept env sDev k,
    netcoreRun_owned_iff h⟩

/-! ## A port that is taken -/

theorem le_foldr_max {fd : Nat} : ∀ {l : List Nat}, fd ∈ l → fd ≤ l.foldr max 0
  | a :: l, h => by
    rcases List.mem_cons.mp h with rfl | h
    · exact Nat.le_max_left ..
    · exact Nat.le_trans (le_foldr_max h) (Nat.le_max_right ..)

/-- A machine with one address, where `bind` answers as given and nothing else fails. -/
def oneAddress (bind : Nat → Bool) : InetEnv where
  getaddrinfo _ := some [.inet 0x7f000001 5600]
  socket _ opened := some (opened.foldr max 0 + 1)
  fresh _ opened fd h hmem := by
    have hle := le_foldr_max hmem
    have := Option.some.inj h
    omega
  fcntl _ := true
  setsockopt _ := true
  bind := bind
  connect _ := true
  getifaddrs _ := some [("lo", some (.inet 0x7f000001 0))]
  ifNametoindex _ _ := 1
  eventNew _ := true

/-- A receiver that is to be opened. -/
def receiverStart : NetcoreState := ⟨true, [.rx ⟨"lo", none, false⟩], ⟨0, [], [], []⟩⟩

theorem receiverStart_owned : Owned receiverStart := ⟨.nil, .nil, rfl⟩

theorem socket_ownership_reopened : Owned (netcoreRun (oneAddress fun _ => true) receiverStart [.wdt, .reload, .wdt]) := by
  have hclean : CleanRun (oneAddress fun _ => true) receiverStart [.wdt, .reload, .wdt] := by
    refine ⟨?_, ?_, ?_, trivial⟩
    · exact fun _ _ => ⟨by decide, trivial⟩
    · exact fun hev => nomatch hev
    · exact fun _ _ => ⟨by decide, trivial⟩
  have hrun := socket_ownership_iff (oneAddress fun _ => true) receiverStart_owned [.wdt, .reload, .wdt]
  exact hrun.2.2.mpr hclean [.wdt, .reload, .wdt] List.prefix_rfl

/-- Two failed rounds, and two sockets that are nobody's. -/
theorem failed_binds_break_ownership :
    (netcoreRun (oneAddress fun _ => false) receiverStart [.wdt, .wdt]).kernel.opened = [2, 1] ∧
      ¬ ∀ pre, pre <+: [NetcoreEv.wdt, .wdt] → Owned (netcoreRun (oneAddress fun _ => false) receiverStart pre) := by
  refine ⟨by decide, fun hall => ?_⟩
  have hlen := (hall [.wdt, .wdt] List.prefix_rfl).bounded
  exact absurd hlen (by decide)

end WfbYa.Net
