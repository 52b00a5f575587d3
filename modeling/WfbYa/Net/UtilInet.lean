/-
  WfbYa.Net.UtilInet — the sockets of a multicast node (`util_inet.c`).

  The operating system is a parameter: what each call answers, by the number of calls made so
  far. A `Kernel` says what the process holds: its open sockets, and the address lists of
  `getaddrinfo` that are not freed. A call that returns -1 is `none`.

  `inet_rx_socket` and `inet_tx_socket` differ in the helper that sets the socket up. When
  `fcntl` fails, the socket stays open; when the helper fails, the address list stays too.

  - `Keeps`: what no helper changes.
  - `inetSocket_cases`: everything a call can do.
  - `inetSocket_releases_iff`: when a failed call has released what it took.
-/

import WfbYa.Params

namespace WfbYa.Net

/-! ## Addresses -/

/-- `struct sockaddr_in`, `struct sockaddr_in6`; ports and addresses in host byte order. -/
inductive SockAddr where
  | inet (addr : UInt32) (port : UInt16)
  | inet6 (addr : List UInt8) (port : UInt16) (scopeId : UInt32)
  deriving DecidableEq

def SockAddr.isInet6 : SockAddr → Bool
  | .inet _ _ => false
  | .inet6 _ _ _ => true

/-- `IN6_IS_ADDR_MC_NODELOCAL` and its siblings: the scope of a multicast address. -/
def mcScope (addr : List UInt8) (scope : UInt8) : Bool := addr.getD 0 0 == 0xff && addr.getD 1 0 &&& 0x0f == scope

def isAddrMulticast : SockAddr → Bool
  | .inet addr _ => addr &&& 0xf0000000 == 0xe0000000
  | .inet6 addr _ _ => mcScope addr 0x1 || mcScope addr 0x2 || mcScope addr 0x5 || mcScope addr 0x8 || mcScope addr 0xe

def isAddrLinklocal : SockAddr → Bool
  | .inet _ _ => false
  | .inet6 addr _ _ => mcScope addr 0x2 || (addr.getD 0 0 == 0xfe && addr.getD 1 0 &&& 0xc0 == 0x80)

/-! ## The operating system -/

/-- What the process holds: `opened` are its sockets, `infos` its address lists. -/
structure Kernel where
  calls : Nat
  opened : List Nat
  infos : List Nat
  /-- `p_err`. -/
  errs : List String

/-- What the calls answer; the first argument is the number of calls made before. -/
structure InetEnv where
  getaddrinfo : Nat → Option (List SockAddr)
  /-- The descriptor is none of those that are open. -/
  socket : Nat → List Nat → Option Nat
  fresh : ∀ n opened fd, socket n opened = some fd → fd ∉ opened
  fcntl : Nat → Bool
  setsockopt : Nat → Bool
  bind : Nat → Bool
  connect : Nat → Bool
  /-- The interfaces' names and addresses; `none` is an address of another family. -/
  getifaddrs : Nat → Option (List (String × Option SockAddr))
  /-- 0 if there is no such interface. -/
  ifNametoindex : Nat → String → UInt32
  /-- `event_new` of `netcore_rx_event_add`. -/
  eventNew : Nat → Bool

/-- A function that may return -1, printing why. -/
def Inet (α : Type) : Type := Kernel → Option α × Kernel

def Inet.andThen {α β : Type} (m : Inet α) (f : α → Inet β) : Inet β := fun k =>
  match m k with
  | (some a, k') => f a k'
  | (none, k') => (none, k')

instance : Monad Inet where
  pure a k := (some a, k)
  bind := Inet.andThen

def Inet.fail {α : Type} : Inet α := fun k => (none, k)

/-- The message, if it fails. -/
def Inet.orErr {α : Type} (m : Inet α) (msg : String) : Inet α := fun k =>
  match m k with
  | (some a, k') => (some a, k')
  | (none, k') => (none, { k' with errs := k'.errs ++ [msg] })

/-- A call that takes nothing and gives nothing back. -/
def sysCall {α : Type} (answer : Nat → Option α) : Inet α := fun k => (answer k.calls, { k with calls := k.calls + 1 })

/-- One that returns 0 or -1. -/
def sysCheck (answer : Nat → Bool) : Inet Unit := sysCall fun n => if answer n then some () else none

/-- `socket`. -/
def openSocket (env : InetEnv) : Inet Nat := fun k =>
  match env.socket k.calls k.opened with
  | some fd => (some fd, { k with calls := k.calls + 1, opened := fd :: k.opened })
  | none => (none, { k with calls := k.calls + 1 })

/-- `close`. -/
def closeSocket (fd : Nat) (k : Kernel) : Kernel := { k with opened := k.opened.erase fd }

/-- `getaddrinfo`: the list is named after the call. -/
def getaddrinfo (env : InetEnv) : Inet (Nat × List SockAddr) := fun k =>
  match env.getaddrinfo k.calls with
  | some ais => (some (k.calls, ais), { k with calls := k.calls + 1, infos := k.calls :: k.infos })
  | none => (none, { k with calls := k.calls + 1 })

def freeaddrinfo (res : Nat) (k : Kernel) : Kernel := { k with infos := k.infos.erase res }

/-! ## The helpers

  `s_dev` is not NULL: `netinet_rx_initialize` and `netinet_tx_initialize` assert it. -/

def getAnyAddress (inet6 : Bool) : SockAddr := if inet6 then .inet6 (List.replicate 16 0) 0 0 else .inet 0 0

/-- The first address of the family on the device. -/
def getLocalAddress (env : InetEnv) (inet6 : Bool) (sDev : String) : Inet SockAddr := do
  let ifs ← (sysCall env.getifaddrs).orErr "getifaddrs() failed: %s.\n"
  let found := ifs.findSome? fun ifa => if ifa.1 = sDev then ifa.2.filter fun sa => sa.isInet6 == inet6 else none
  return found.getD (getAnyAddress inet6)

/-- The scope of a link-local address. -/
def in6AddrFixup (env : InetEnv) (sa : SockAddr) (sDev : String) : Inet SockAddr :=
  match sa with
  | .inet _ _ => return sa
  | .inet6 addr port scopeId =>
    if isAddrLinklocal sa then do
      let ifidx ← sysCall fun n => some (env.ifNametoindex n sDev)
      if ifidx = 0 then Inet.fail.orErr "Invalid interface %s.\n"
      else if scopeId = 0 then return .inet6 addr port ifidx
      else if scopeId ≠ ifidx then Inet.fail.orErr "Interface Index mismatch.\n"
      else return sa
    else return sa

def copyPort (dst src : SockAddr) : Inet SockAddr :=
  match dst, src with
  | .inet addr _, .inet _ port => return .inet addr port
  | .inet6 addr _ scopeId, .inet6 _ port _ => return .inet6 addr port scopeId
  | _, _ => Inet.fail.orErr "Address family mismatch.\n"

def bindUnicast (env : InetEnv) (sa : SockAddr) (sDev : String) : Inet SockAddr := do
  (sysCheck env.setsockopt).orErr "setsockopt(SO_RESUSEPORT) failed: %s\n"
  (sysCheck env.setsockopt).orErr "setsockopt(SO_REUSEADDR) failed: %s\n"
  let sa ← (in6AddrFixup env sa sDev).orErr "Cannot create link-local address.\n"
  (sysCheck env.bind).orErr "bind() failed: %s\n"
  return sa

/-- The local end, on the port of `sa`. -/
def localEnd (env : InetEnv) (sa : SockAddr) (sDev : String) : Inet SockAddr := do
  let ss ← (getLocalAddress env sa.isInet6 sDev).orErr "Cannot select local address.\n"
  (copyPort ss sa).orErr "Cannot extract port info.\n"

def joinGroup (env : InetEnv) (sa : SockAddr) (sDev : String) : Inet Unit :=
  match sa with
  | .inet _ _ => (sysCheck env.setsockopt).orErr "setsockopt(IP_ADD_MEMBERSHIP) failed: %s.\n"
  | .inet6 _ _ _ => do
    let _ ← sysCall fun n => some (env.ifNametoindex n sDev)
    (sysCheck env.setsockopt).orErr "setsockopt(IPV6_JOIN_GROUP) failed: %s.\n"
    (sysCheck env.setsockopt).orErr "setsockopt(IPV6_MULTICAST_LOOP) failed: %s.\n"

def bindMulticast (env : InetEnv) (sa : SockAddr) (sDev : String) : Inet SockAddr := do
  let sa ← (in6AddrFixup env sa sDev).orErr "Invalid IPv6 address.\n"
  let _ ← localEnd env sa sDev
  (sysCheck env.setsockopt).orErr "setsockopt(SO_REUSEPORT) failed: %s.\n"
  (sysCheck env.setsockopt).orErr "setsockopt(SO_REUSEADDR) failed: %s.\n"
  (sysCheck env.bind).orErr "bind() failed: %s.\n"
  joinGroup env sa sDev
  return sa

/-- The front that `connect_unicast` and `connect_multicast` share. -/
def bindLocal (env : InetEnv) (sa : SockAddr) (sDev : String) : Inet SockAddr := do
  let sa ← (in6AddrFixup env sa sDev).orErr "Invalid IPv6 address.\n"
  let _ ← localEnd env sa sDev
  (sysCheck env.setsockopt).orErr "setsockopt(SO_REUSEADDR) failed: %s.\n"
  (sysCheck env.setsockopt).orErr "setsockopt(SO_REUSEPORT) failed: %s.\n"
  (sysCheck env.bind).orErr "bind() failed: %s.\n"
  return sa

def connectUnicast (env : InetEnv) (sa : SockAddr) (sDev : String) : Inet SockAddr := do
  let sa ← bindLocal env sa sDev
  (sysCheck env.connect).orErr "connect() failed: %s.\n"
  return sa

def multicastIf (env : InetEnv) (sa : SockAddr) (sDev : String) : Inet Unit :=
  match sa with
  | .inet _ _ => (sysCheck env.setsockopt).orErr "setsockopt(IP_MULTICAST_IF) failed: %s.\n"
  | .inet6 _ _ _ => do
    let _ ← sysCall fun n => some (env.ifNametoindex n sDev)
    (sysCheck env.setsockopt).orErr "setsockopt(IPV6_MULTICAST_IF) failed: %s.\n"

def connectMulticast (env : InetEnv) (sa : SockAddr) (sDev : String) : Inet SockAddr := do
  let sa ← bindLocal env sa sDev
  multicastIf env sa sDev
  (sysCheck env.connect).orErr "connect() failed: %s.\n"
  return sa

/-! ## inet_rx_socket, inet_tx_socket -/

/-- How a socket is set up for an address, and the messages if it cannot be. -/
structure Setup where
  multicast : InetEnv → SockAddr → String → Inet SockAddr
  unicast : InetEnv → SockAddr → String → Inet SockAddr

def Setup.run (setup : Setup) (env : InetEnv) (ai : SockAddr) (sDev : String) : Inet SockAddr :=
  if isAddrMulticast ai then (setup.multicast env ai sDev).orErr "bind_multicast failed.\n"
  else (setup.unicast env ai sDev).orErr "bind_unicast failed.\n"

/-- `fcntl` and the helper, on a socket that is open. -/
def Setup.onSocket (setup : Setup) (env : InetEnv) (res : Nat) (ai : SockAddr) (sDev : String) : Inet SockAddr := fun k =>
  match (sysCheck env.fcntl).orErr "fcntl(F_SETFD) failed: %s\n" k with
  | (none, k) => (none, freeaddrinfo res k)
  | (some (), k) => setup.run env ai sDev k

/-- The body of the loop over the addresses: it returns or breaks, so that there is no second
    turn. -/
def Setup.firstAddress (setup : Setup) (env : InetEnv) (res : Nat) (ai : SockAddr) (sDev : String) : Inet Nat := fun k =>
  match (openSocket env).orErr "socket() failed: %s\n" k with
  | (none, k) => (none, freeaddrinfo res k)
  | (some s, k) =>
    match setup.onSocket env res ai sDev k with
    | (none, k) => (none, k)
    | (some _, k) => (some s, freeaddrinfo res k)

def inetSocket (setup : Setup) (env : InetEnv) (sDev : String) : Inet Nat := fun k =>
  match (getaddrinfo env).orErr "getaddrinfo() failed: %s\n" k with
  | (none, k) => (none, k)
  | (some (res, []), k) => (none, { freeaddrinfo res k with errs := k.errs ++ ["Could not find valid address for %s:%s.\n"] })
  | (some (res, ai :: _), k) => setup.firstAddress env res ai sDev k

def rxSetup : Setup := ⟨bindMulticast, bindUnicast⟩
def txSetup : Setup := ⟨connectMulticast, connectUnicast⟩

def inetRxSocket : InetEnv → String → Inet Nat := inetSocket rxSetup
def inetTxSocket : InetEnv → String → Inet Nat := inetSocket txSetup

/-! ## What the helpers leave alone -/

/-- No socket is opened or closed, no address list taken or freed. -/
structure Keeps {α : Type} (m : Inet α) : Prop where
  opened : ∀ k, (m k).2.opened = k.opened
  infos : ∀ k, (m k).2.infos = k.infos

section Keeps

variable {α β : Type} {m : Inet α} {f : α → Inet β} {env : InetEnv} {sa : SockAddr} {sDev : String}

theorem keeps_pure (a : α) : Keeps (pure a : Inet α) := ⟨fun _ => rfl, fun _ => rfl⟩

theorem keeps_fail : Keeps (Inet.fail : Inet α) := ⟨fun _ => rfl, fun _ => rfl⟩

theorem keeps_sysCall (answer : Nat → Option α) : Keeps (sysCall answer) := ⟨fun _ => rfl, fun _ => rfl⟩

theorem keeps_sysCheck (answer : Nat → Bool) : Keeps (sysCheck answer) := keeps_sysCall _

theorem andThen_state (m : Inet α) (f : α → Inet β) (k : Kernel) :
    (m.andThen f k).2 = (m k).2 ∨ ∃ a, (m.andThen f k).2 = (f a (m k).2).2 := by
  unfold Inet.andThen
  cases m k with
  | mk o k' =>
    cases o with
    | none => exact .inl rfl
    | some a => exact .inr ⟨a, rfl⟩

theorem Keeps.bind (hm : Keeps m) (hf : ∀ a, Keeps (f a)) : Keeps (m >>= f) := by
  constructor
  · intro k
    show (m.andThen f k).2.opened = k.opened
    rcases andThen_state m f k with h | ⟨a, h⟩
    · rw [h, hm.opened]
    · rw [h, (hf a).opened, hm.opened]
  · intro k
    show (m.andThen f k).2.infos = k.infos
    rcases andThen_state m f k with h | ⟨a, h⟩
    · rw [h, hm.infos]
    · rw [h, (hf a).infos, hm.infos]

theorem orErr_state (m : Inet α) (msg : String) (k : Kernel) :
    (m.orErr msg k).2.opened = (m k).2.opened ∧ (m.orErr msg k).2.infos = (m k).2.infos := by
  unfold Inet.orErr
  cases m k with
  | mk o k' => cases o <;> exact ⟨rfl, rfl⟩

theorem Keeps.orErr (hm : Keeps m) (msg : String) : Keeps (m.orErr msg) :=
  ⟨fun k => (orErr_state m msg k).1.trans (hm.opened k), fun k => (orErr_state m msg k).2.trans (hm.infos k)⟩

theorem keeps_check (answer : Nat → Bool) (msg : String) : Keeps ((sysCheck answer).orErr msg) :=
  (keeps_sysCheck answer).orErr msg

theorem getLocalAddress_keeps (inet6 : Bool) : Keeps (getLocalAddress env inet6 sDev) :=
  ((keeps_sysCall _).orErr _).bind fun _ => keeps_pure _

theorem in6AddrFixup_keeps : Keeps (in6AddrFixup env sa sDev) := by
  cases sa with
  | inet => exact keeps_pure _
  | inet6 addr port scopeId =>
    unfold in6AddrFixup
    dsimp only
    split
    · apply (keeps_sysCall _).bind
      intro ifidx
      split
      · exact keeps_fail.orErr _
      · split
        · exact keeps_pure _
        · split
          · exact keeps_fail.orErr _
          · exact keeps_pure _
    · exact keeps_pure _

theorem copyPort_keeps (dst src : SockAddr) : Keeps (copyPort dst src) := by
  cases dst <;> cases src
  · exact keeps_pure _
  · exact keeps_fail.orErr _
  · exact keeps_fail.orErr _
  · exact keeps_pure _

theorem localEnd_keeps : Keeps (localEnd env sa sDev) :=
  ((getLocalAddress_keeps _).orErr _).bind fun _ => (copyPort_keeps ..).orErr _

theorem joinGroup_keeps : Keeps (joinGroup env sa sDev) := by
  cases sa with
  | inet => exact keeps_check ..
  | inet6 => exact (keeps_sysCall _).bind fun _ => (keeps_check ..).bind fun _ => keeps_check ..

theorem multicastIf_keeps : Keeps (multicastIf env sa sDev) := by
  cases sa with
  | inet => exact keeps_check ..
  | inet6 => exact (keeps_sysCall _).bind fun _ => keeps_check ..

theorem bindUnicast_keeps : Keeps (bindUnicast env sa sDev) :=
  (keeps_check ..).bind fun _ => (keeps_check ..).bind fun _ => (in6AddrFixup_keeps.orErr _).bind fun _ =>
    (keeps_check ..).bind fun _ => keeps_pure _

theorem bindMulticast_keeps : Keeps (bindMulticast env sa sDev) :=
  (in6AddrFixup_keeps.orErr _).bind fun _ => localEnd_keeps.bind fun _ => (keeps_check ..).bind fun _ =>
    (keeps_check ..).bind fun _ => (keeps_check ..).bind fun _ => joinGroup_keeps.bind fun _ => keeps_pure _

theorem bindLocal_keeps : Keeps (bindLocal env sa sDev) :=
  (in6AddrFixup_keeps.orErr _).bind fun _ => localEnd_keeps.bind fun _ => (keeps_check ..).bind fun _ =>
    (keeps_check ..).bind fun _ => (keeps_check ..).bind fun _ => keeps_pure _

theorem connectUnicast_keeps : Keeps (connectUnicast env sa sDev) :=
  bindLocal_keeps.bind fun _ => (keeps_check ..).bind fun _ => keeps_pure _

theorem connectMulticast_keeps : Keeps (connectMulticast env sa sDev) :=
  bindLocal_keeps.bind fun _ => multicastIf_keeps.bind fun _ => (keeps_check ..).bind fun _ => keeps_pure _

end Keeps

/-! ## What a call does -/

variable {setup : Setup} {env : InetEnv} {sDev : String} {k : Kernel}

/-- The helpers keep to the socket they are given. -/
structure Setup.Kept (setup : Setup) : Prop where
  multicast : ∀ env sa sDev, Keeps (setup.multicast env sa sDev)
  unicast : ∀ env sa sDev, Keeps (setup.unicast env sa sDev)

theorem rxSetup_kept : rxSetup.Kept := ⟨fun _ _ _ => bindMulticast_keeps, fun _ _ _ => bindUnicast_keeps⟩

theorem txSetup_kept : txSetup.Kept := ⟨fun _ _ _ => connectMulticast_keeps, fun _ _ _ => connectUnicast_keeps⟩

theorem Setup.Kept.run (h : setup.Kept) (ai : SockAddr) : Keeps (setup.run env ai sDev) := by
  unfold Setup.run
  split
  · exact (h.multicast ..).orErr _
  · exact (h.unicast ..).orErr _

/-- A socket is created, and `fcntl` or the helper fails on it. -/
def Setup.fails (setup : Setup) (env : InetEnv) (sDev : String) (k : Kernel) : Bool :=
  match (getaddrinfo env).orErr "getaddrinfo() failed: %s\n" k with
  | (some (res, ai :: _), k) =>
    match (openSocket env).orErr "socket() failed: %s\n" k with
    | (some _, k) => (setup.onSocket env res ai sDev k).1.isNone
    | (none, _) => false
  | _ => false

/-- Everything a call can do; `leaks` is whether a socket was created that could not be set up. -/
inductive SocketCall (k : Kernel) : Bool → Option Nat → Kernel → Prop
  | released {k' : Kernel} : k'.opened = k.opened → k'.infos = k.infos → SocketCall k false none k'
  | leaked {k' : Kernel} {fd : Nat} : fd ∉ k.opened → k'.opened = fd :: k.opened → SocketCall k true none k'
  | made {k' : Kernel} {fd : Nat} : fd ∉ k.opened → k'.opened = fd :: k.opened → k'.infos = k.infos →
      SocketCall k false (some fd) k'

theorem onSocket_opened (h : setup.Kept) (res : Nat) (ai : SockAddr) (k : Kernel) :
    (setup.onSocket env res ai sDev k).2.opened = k.opened ∧
      ((setup.onSocket env res ai sDev k).1 ≠ none → (setup.onSocket env res ai sDev k).2.infos = k.infos) := by
  have ho := (keeps_check env.fcntl "fcntl(F_SETFD) failed: %s\n").opened k
  have hi := (keeps_check env.fcntl "fcntl(F_SETFD) failed: %s\n").infos k
  unfold Setup.onSocket
  cases hr : (sysCheck env.fcntl).orErr "fcntl(F_SETFD) failed: %s\n" k with
  | mk o k' =>
    rw [hr] at ho hi
    cases o with
    | none => exact ⟨ho, fun hne => absurd rfl hne⟩
    | some u =>
      have hrun := @Setup.Kept.run setup env sDev h ai
      exact ⟨(hrun.opened k').trans ho, fun _ => (hrun.infos k').trans hi⟩

theorem openSocket_cases (env : InetEnv) (msg : String) (k : Kernel) :
    (∃ k', (openSocket env).orErr msg k = (none, k') ∧ k'.opened = k.opened ∧ k'.infos = k.infos) ∨
      ∃ fd k', (openSocket env).orErr msg k = (some fd, k') ∧ fd ∉ k.opened ∧ k'.opened = fd :: k.opened ∧
        k'.infos = k.infos := by
  unfold Inet.orErr openSocket
  cases hs : env.socket k.calls k.opened with
  | none => exact .inl ⟨_, rfl, rfl, rfl⟩
  | some fd => exact .inr ⟨fd, _, rfl, env.fresh _ _ _ hs, rfl, rfl⟩

theorem getaddrinfo_cases (env : InetEnv) (msg : String) (k : Kernel) :
    (∃ k', (getaddrinfo env).orErr msg k = (none, k') ∧ k'.opened = k.opened ∧ k'.infos = k.infos) ∨
      ∃ res ais k', (getaddrinfo env).orErr msg k = (some (res, ais), k') ∧ k'.opened = k.opened ∧ k'.infos = res :: k.infos := by
  unfold Inet.orErr getaddrinfo
  cases env.getaddrinfo k.calls with
  | none => exact .inl ⟨_, rfl, rfl, rfl⟩
  | some ais => exact .inr ⟨k.calls, ais, _, rfl, rfl, rfl⟩

theorem inetSocket_cases (h : setup.Kept) (env : InetEnv) (sDev : String) (k : Kernel) :
    SocketCall k (setup.fails env sDev k) (inetSocket setup env sDev k).1 (inetSocket setup env sDev k).2 := by
  unfold inetSocket Setup.fails
  rcases getaddrinfo_cases env "getaddrinfo() failed: %s\n" k with ⟨k1, hg, ho1, hi1⟩ | ⟨res, ais, k1, hg, ho1, hi1⟩
  · rw [hg]
    exact .released ho1 hi1
  · rw [hg]
    cases ais with
    | nil =>
      refine .released ho1 ?_
      show k1.infos.erase res = k.infos
      rw [hi1, List.erase_cons_head]
    | cons ai ais =>
      dsimp only
      unfold Setup.firstAddress
      rcases openSocket_cases env "socket() failed: %s\n" k1 with ⟨k2, hs, ho2, hi2⟩ | ⟨fd, k2, hs, hfd, ho2, hi2⟩
      · rw [hs]
        refine .released (ho2.trans ho1) ?_
        show k2.infos.erase res = k.infos
        rw [hi2, hi1, List.erase_cons_head]
      · rw [hs]
        rw [ho1] at hfd ho2
        have hset := @onSocket_opened setup env sDev h res ai k2
        dsimp only
        cases hr : setup.onSocket env res ai sDev k2 with
        | mk o k3 =>
          rw [hr] at hset
          cases o with
          | none => exact .leaked hfd (hset.1.trans ho2)
          | some ai' =>
            refine .made hfd (hset.1.trans ho2) ?_
            show k3.infos.erase res = k.infos
            rw [hset.2 (by simp), hi2, hi1, List.erase_cons_head]

/-- If the call fails, the sockets it created are closed, and the address lists it obtained
    are freed. -/
def Releases (k : Kernel) (r : Option Nat × Kernel) : Prop := r.1 = none → r.2.opened = k.opened ∧ r.2.infos = k.infos

theorem inetSocket_releases_iff (h : setup.Kept) (env : InetEnv) (sDev : String) (k : Kernel) :
    Releases k (inetSocket setup env sDev k) ↔ setup.fails env sDev k = false := by
  have hcall := inetSocket_cases h env sDev k
  unfold Releases
  generalize inetSocket setup env sDev k = r at hcall ⊢
  obtain ⟨o, k'⟩ := r
  generalize setup.fails env sDev k = b at hcall ⊢
  cases hcall with
  | released ho hi => exact ⟨fun _ => rfl, fun _ _ => ⟨ho, hi⟩⟩
  | leaked hfd ho =>
    refine ⟨fun hrel => ?_, fun hb => by cases hb⟩
    rw [(hrel rfl).1] at ho
    exact absurd (ho ▸ List.mem_cons_self) hfd
  | made _ _ _ => exact ⟨fun _ => rfl, fun _ hnone => by cases hnone⟩

end WfbYa.Net
