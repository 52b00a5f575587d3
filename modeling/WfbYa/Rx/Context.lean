/-
  WfbYa.Rx.Context — the receiver's state (`rx_core.h`) and what its calls report.

  `crypto` and `noFec` stand for the two file-scope objects the receiver reads: the
  singleton of `crypto_wfb.c` and `wfb_options.no_fec`.
-/

import WfbYa.Frame.FrameWfb
import WfbYa.Ring.Rbuf
import WfbYa.Rx.Externals

namespace WfbYa.Rx

open WfbYa.Frame WfbYa.Ring

inductive MsgType where
  | info
  | err
  | debug
  deriving DecidableEq, Repr

inductive Ev where
  /-- `p_info`, `p_err` or `p_debug`, with its format. -/
  | msg (type : MsgType) (fmt : String)
  | contextDump
  | sessionDump
  | ring (e : RingEv)
  | logFrame (blockIdx fragmentIdx size : Nat)
  | logDecode (blockIdx fragmentIdx : Nat) (data : Bytes)
  | logCreate (fecType fecK fecN : Nat)
  /-- A decrypted fragment of `len` bytes is put into a slot, under the slot's block. -/
  | store (slot blockIdx fragmentIdx len : Nat)
  /-- A call of `send_data_one`: the header bytes and the packet they announce. -/
  | send (blockIdx fragmentIdx : Nat) (hdr data : Bytes)
  /-- A decode handler is called from within it. -/
  | decode (handler blockIdx fragmentIdx : Nat) (rssi : Int) (data : Bytes)
  /-- `purge_stale` made `slot` the front: `ring_alloc` before, and the blocks it freed. -/
  | purged (slot alloc : Nat) (freed : List Nat)
  /-- `data_recovery` calls the codec; `received` are the fragments the slot holds. -/
  | recover (received index out : List Nat) (pktsiz : Nat)
  deriving DecidableEq, Repr

structure RxContext where
  wfb : WfbContext
  fec : FecContext
  channelId : Nat
  epoch : Nat
  fecType : Nat
  fecK : Nat
  fecN : Nat
  sessionKey : Bytes
  hasSessionKey : Bool
  freq : Nat
  dbm : Int
  rxRing : Option Rbuf
  /-- The registered decode handlers, in the order of their table entries. -/
  decodeHandler : List Nat
  crypto : CryptoWfbContext
  noFec : Bool

/-- `rx_context_initialize`, beside an initialised crypto module. -/
def rxContextInitialize (channelId : Nat) (crypto : CryptoWfbContext) (noFec : Bool) : RxContext where
  wfb := .zero
  fec := ⟨0, none⟩
  channelId := channelId
  epoch := 0
  fecType := 0
  fecK := 0
  fecN := 0
  sessionKey := List.replicate crypto_aead_chacha20poly1305_KEYBYTES 0
  hasSessionKey := false
  freq := 0
  dbm := 0
  rxRing := none
  decodeHandler := []
  crypto := crypto
  noFec := noFec

def rxContextSetDecode (ctx : RxContext) (handler : Nat) : Int × RxContext :=
  if ctx.decodeHandler.length < rxMaxDecode then (0, { ctx with decodeHandler := ctx.decodeHandler ++ [handler] })
  else (-1, ctx)

/-- The receiver as `main` sets it up: initialised, with its decode handlers. -/
def rxSetup (channelId : Nat) (crypto : CryptoWfbContext) (noFec : Bool) (handlers : List Nat) : RxContext :=
  handlers.foldl (fun ctx h => (rxContextSetDecode ctx h).2) (rxContextInitialize channelId crypto noFec)

/-- What a call returns: its return value, the context, and what it reports. -/
structure Ret where
  ret : Int
  ctx : RxContext
  evs : List Ev

def errEvs (fmt : Option String) : List Ev := fmt.toList.map (Ev.msg .err)

end WfbYa.Rx
