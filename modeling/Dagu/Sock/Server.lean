import Mathlib.Data.List.Basic

/-! # The per-run socket server as a step relation

`sock.Server` (`internal/sock/server.go`) answers HTTP requests on a unix
socket. `Serve` runs on a goroutine of its own; `Shutdown` may be called from
any other goroutine, any number of times. The calls are serialised by `srv.mu`,
but nothing orders them against `Serve`: `Serve` writes `srv.listener` without
the lock, and reads `srv.quit` only after `Accept` returns.

The model keeps every statement of the two functions that touches shared state
as one step, so that an interleaving of steps is an interleaving of the code:

* `Serve` (lines 63–99): the stale-file `os.Remove`, which may fail and whose
  error is discarded, `net.Listen` (which creates the socket file, and cannot
  bind over a file already at `srv.addr`), the assignment to `srv.listener`,
  the send on the `listen` channel when there is one, `Accept`, the load of
  `quit`, and the two deferred calls;
* `Shutdown` (lines 102–116): the test-and-set of `quit`, the read of
  `srv.listener`, and `Close`, which also unlinks the socket file (the
  behaviour of a `*net.UnixListener` created by `net.Listen`);
* the environment: clients dial while the listener is open, and each handler
  goroutine answers and closes its connection.

The listener never reopens, so its three states are enough; connections are
numbered in the order clients dial.

Every run keeps `Serve`'s fields in step with its program point and the lock
with the `Shutdown` call that holds it (`Inv`). Until `net.Listen` succeeds, a
file at `srv.addr` is the stale one that was there before (`StaleOnly`). So once
`Serve` has returned, a file is left at `srv.addr` only when `net.Listen` failed
over a stale file that `os.Remove` could not delete; `Serve` never leaves a
socket file of its own (`serve_returned_no_sockFile`).
-/

namespace Dagu.Sock

/-- The OS listener `net.Listen` returns. -/
inductive Listener where
  | absent
  | listening
  | closed
  deriving DecidableEq, Repr

/-- A client connection. -/
inductive Conn where
  /-- Dialled, in the listener's backlog. -/
  | pending
  /-- Returned by `Accept`, still in `Serve`'s hands. -/
  | held
  /-- Handed to a handler goroutine (lines 88–96). -/
  | handling
  /-- Closed by its handler (line 95). -/
  | closed
  /-- Still in the backlog when the listener closed: the kernel resets it. -/
  | reset
  deriving DecidableEq, Repr

/-- What `Serve` returns. -/
inductive Result where
  /-- The error of `net.Listen` (line 71). -/
  | listenError
  /-- `ErrServerRequestedShutdown` (line 85). -/
  | requestedShutdown
  deriving DecidableEq, Repr

/-- `Serve`'s program point: the statement it executes next. -/
inductive Pc where
  | start
  | listen
  /-- `net.Listen` returned a listener, not yet assigned to `srv.listener`. -/
  | store
  | send
  /-- `net.Listen` failed. -/
  | failed
  | accept
  /-- `Accept` returned connection `c` (`none`: an error); next, `srv.quit.Load()`. -/
  | check (c : Option Nat)
  | deferShutdown
  | deferRemove
  | done (r : Result)
  deriving DecidableEq, Repr

/-- How far the `Shutdown` call holding `srv.mu` has got. -/
inductive Mu where
  /-- No call holds the lock. -/
  | free
  /-- A call found `quit` false and set it; next it reads `srv.listener`. -/
  | quitSet
  /-- It found `srv.listener` non-nil; next it closes it. -/
  | closing
  deriving DecidableEq, Repr

/-- The shared state of a server and its clients. -/
structure Server where
  quit : Bool
  listener : Listener
  /-- `srv.listener != nil`. -/
  stored : Bool
  /-- A file exists at `srv.addr`. -/
  sockFile : Bool
  pc : Pc
  mu : Mu
  /-- The number of `Shutdown` calls that have returned. -/
  shutdowns : Nat
  conns : List Conn
  deriving DecidableEq, Repr

/-- A fresh server; `stale` says whether a file is left at `srv.addr`. -/
def init (stale : Bool) : Server :=
  ⟨false, .absent, false, stale, .start, .free, 0, []⟩

/-- A connection still in the backlog is reset when the listener closes. -/
def Conn.refuse : Conn → Conn
  | .pending => .reset
  | c => c

/-- `srv.listener.Close()`: the listener closes, the socket file is unlinked,
and the backlog is reset. -/
def closeListener (s : Server) : Server :=
  { s with listener := .closed, sockFile := false, conns := s.conns.map Conn.refuse }

/-- The body of `Shutdown` run at once, as the deferred call of line 79 runs it:
nothing else touches `quit` or `srv.listener` while `Serve` itself holds `srv.mu`. -/
def shutdownNow (s : Server) : Server :=
  if s.quit then s
  else if s.stored then closeListener { s with quit := true }
  else { s with quit := true }

/-- **One step of one goroutine.** `chan` says whether `Serve` was given a
`listen` channel. -/
inductive Step (chan : Bool) : Server → Server → Prop
  /-- Line 64: `os.Remove(srv.addr)`. -/
  | removeStale {s : Server} : s.pc = .start →
      Step chan s { s with sockFile := false, pc := .listen }
  /-- Line 64: `os.Remove(srv.addr)` fails, and `Serve` discards its error. -/
  | removeStaleFail {s : Server} : s.pc = .start → Step chan s { s with pc := .listen }
  /-- Line 66: `net.Listen` succeeds, creating the socket file; a unix socket
  cannot be bound over a file that is already there. -/
  | listenOk {s : Server} : s.pc = .listen → s.sockFile = false →
      Step chan s { s with listener := .listening, sockFile := true, pc := .store }
  /-- Line 66: `net.Listen` fails. -/
  | listenFail {s : Server} : s.pc = .listen → Step chan s { s with pc := .failed }
  /-- Line 66: the assignment to `srv.listener`. -/
  | store {s : Server} : s.pc = .store →
      Step chan s { s with stored := true, pc := if chan then .send else .accept }
  /-- Lines 73–75: `listen <- err` completes once a receiver takes it. -/
  | send {s : Server} : s.pc = .send → Step chan s { s with pc := .accept }
  /-- Lines 67–71: the error is sent, if there is a channel, and returned. -/
  | failReturn {s : Server} : s.pc = .failed → Step chan s { s with pc := .done .listenError }
  /-- Line 83: `Accept` returns a connection from the backlog. -/
  | accept {s : Server} (i : Nat) : s.pc = .accept → s.conns[i]? = some .pending →
      Step chan s { s with pc := .check (some i), conns := s.conns.set i .held }
  /-- Line 83: `Accept` returns an error: always once the listener is closed,
  and transiently before. -/
  | acceptError {s : Server} : s.pc = .accept → Step chan s { s with pc := .check none }
  /-- Lines 84–85: `quit` is set, so `Serve` returns, whatever `Accept` gave it. -/
  | quitSeen {s : Server} {c : Option Nat} : s.pc = .check c → s.quit = true →
      Step chan s { s with pc := .deferShutdown }
  /-- Lines 87–96: the connection goes to a handler goroutine. -/
  | handOff {s : Server} {i : Nat} : s.pc = .check (some i) → s.quit = false →
      Step chan s { s with pc := .accept, conns := s.conns.set i .handling }
  /-- Lines 87 and 98: after an `Accept` error, `Accept` again. -/
  | retry {s : Server} : s.pc = .check none → s.quit = false → Step chan s { s with pc := .accept }
  /-- Line 79: the deferred `srv.Shutdown()`, once it gets `srv.mu`. -/
  | deferShutdown {s : Server} : s.pc = .deferShutdown → s.mu = .free →
      Step chan s { shutdownNow s with pc := .deferRemove }
  /-- Line 80: the deferred `os.Remove(srv.addr)`. -/
  | deferRemove {s : Server} : s.pc = .deferRemove →
      Step chan s { s with sockFile := false, pc := .done .requestedShutdown }
  /-- Lines 103–105, 115: `quit` is already set; the call returns. -/
  | shutdownQuit {s : Server} : s.mu = .free → s.quit = true →
      Step chan s { s with shutdowns := s.shutdowns + 1 }
  /-- Lines 103–106: the call takes `srv.mu` and sets `quit`. -/
  | shutdownLock {s : Server} : s.mu = .free → s.quit = false →
      Step chan s { s with quit := true, mu := .quitSet }
  /-- Line 107: `srv.listener` is nil; the call returns. -/
  | shutdownNil {s : Server} : s.mu = .quitSet → s.stored = false →
      Step chan s { s with mu := .free, shutdowns := s.shutdowns + 1 }
  /-- Line 107: `srv.listener` is set. -/
  | shutdownLoad {s : Server} : s.mu = .quitSet → s.stored = true →
      Step chan s { s with mu := .closing }
  /-- Lines 108–112: `srv.listener.Close()`; the call returns. -/
  | shutdownClose {s : Server} : s.mu = .closing →
      Step chan s { closeListener s with mu := .free, shutdowns := s.shutdowns + 1 }
  /-- A client dials the open listener. -/
  | connect {s : Server} : s.listener = .listening →
      Step chan s { s with conns := s.conns ++ [.pending] }
  /-- Lines 89–95: a handler reads the request, answers it and closes the connection. -/
  | handle {s : Server} (i : Nat) : s.conns[i]? = some .handling →
      Step chan s { s with conns := s.conns.set i .closed }

/-- The states some interleaving reaches from a fresh server. -/
inductive Reachable (chan stale : Bool) : Server → Prop
  | init : Reachable chan stale (init stale)
  | step {s s' : Server} : Reachable chan stale s → Step chan s s' → Reachable chan stale s'

/-! ## What every run keeps -/

variable {chan stale : Bool} {s s' : Server}

@[simp] theorem shutdownNow_mu : (shutdownNow s).mu = s.mu := by
  unfold shutdownNow; split_ifs <;> rfl

@[simp] theorem shutdownNow_shutdowns : (shutdownNow s).shutdowns = s.shutdowns := by
  unfold shutdownNow; split_ifs <;> rfl

theorem shutdownNow_of_quit (h : s.quit = true) : shutdownNow s = s := by
  simp [shutdownNow, h]

/-- What holds of the fields `Serve` writes, at each of its program points. -/
def PcInv (s : Server) : Pc → Prop
  | .start => s.stored = false ∧ s.listener = .absent
  | .listen | .failed | .done .listenError => s.stored = false ∧ s.listener = .absent
  | .store => s.stored = false ∧ s.listener ≠ .absent
  | .send | .accept | .check _ => s.stored = true ∧ s.listener ≠ .absent
  | .deferShutdown | .deferRemove | .done .requestedShutdown =>
      s.stored = true ∧ s.listener ≠ .absent ∧ s.quit = true

/-- **The invariant of every run.** `Serve`'s fields agree with its program
point; a returned `Shutdown` call leaves `quit` set and the lock free; the call
holding the lock has set `quit`, and closes only a stored listener. -/
structure Inv (s : Server) : Prop where
  pc : PcInv s s.pc
  shutdowns_quit : 0 < s.shutdowns → s.quit = true ∧ s.mu = .free
  mu_quit : s.mu ≠ .free → s.quit = true
  closing_stored : s.mu = .closing → s.stored = true

theorem inv_init : Inv (init stale) := ⟨⟨rfl, rfl⟩, by simp [init], by simp [init], by simp [init]⟩

/-- Setting `quit` keeps `Serve`'s facts. -/
theorem PcInv.setQuit {pc : Pc} (h : PcInv s pc) : PcInv { s with quit := true } pc := by
  cases pc <;> (try rename_i r; cases r) <;> simp_all [PcInv]

/-- Closing a stored listener keeps `Serve`'s facts. -/
theorem PcInv.close {pc : Pc} (h : PcInv s pc) (hs : s.stored = true) :
    PcInv (closeListener s) pc := by
  cases pc <;> (try rename_i r; cases r) <;> simp_all [PcInv, closeListener]

theorem Inv.step (hi : Inv s) (hs : Step chan s s') : Inv s' := by
  obtain ⟨hp, h1, h2, h3⟩ := hi
  cases hs with
  | removeStale hpc | removeStaleFail hpc => rw [hpc] at hp; exact ⟨hp, h1, h2, h3⟩
  | listenOk hpc _ => rw [hpc] at hp; exact ⟨⟨hp.1, nofun⟩, h1, h2, h3⟩
  | listenFail hpc => rw [hpc] at hp; exact ⟨hp, h1, h2, h3⟩
  | store hpc =>
      rw [hpc] at hp; exact ⟨by cases chan <;> exact ⟨rfl, hp.2⟩, h1, h2, fun _ => rfl⟩
  | send hpc | acceptError hpc | handOff hpc | retry hpc | failReturn hpc | accept _ hpc =>
      rw [hpc] at hp; exact ⟨hp, h1, h2, h3⟩
  | quitSeen hpc hq => rw [hpc] at hp; exact ⟨⟨hp.1, hp.2, hq⟩, h1, h2, h3⟩
  | deferShutdown hpc =>
      rw [hpc] at hp
      rw [shutdownNow_of_quit hp.2.2]
      exact ⟨hp, h1, h2, h3⟩
  | deferRemove hpc => rw [hpc] at hp; exact ⟨hp, h1, h2, h3⟩
  | shutdownQuit hm hq => exact ⟨hp, fun _ => ⟨hq, hm⟩, h2, h3⟩
  | shutdownLock hm hq =>
      refine ⟨hp.setQuit, fun h => ?_, fun _ => rfl, nofun⟩
      simp [hq] at h1
      simp [h1] at h
  | shutdownNil hm => exact ⟨hp, fun _ => ⟨h2 (by simp [hm]), rfl⟩, nofun, nofun⟩
  | shutdownLoad hm hst =>
      refine ⟨hp, fun h => ?_, fun _ => h2 (by simp [hm]), fun _ => hst⟩
      simp [(h1 h).2] at hm
  | shutdownClose hm =>
      exact ⟨hp.close (h3 hm), fun _ => ⟨h2 (by simp [hm]), rfl⟩, nofun, nofun⟩
  | connect | handle => exact ⟨hp, h1, h2, h3⟩

theorem Reachable.inv (h : Reachable chan stale s) : Inv s := by
  induction h with
  | init => exact inv_init
  | step _ hs ih => exact ih.step hs

/-! ## What `Serve` leaves -/

/-- Until `net.Listen` has succeeded, a file at `srv.addr` is the stale file
that was there when `Serve` started. -/
def StaleOnly (stale : Bool) (s : Server) : Prop :=
  s.listener = .absent → s.sockFile = true → stale = true

/-- Only `net.Listen` creates a file, and it also makes the listener present. -/
theorem StaleOnly.step (h : StaleOnly stale s) (hs : Step chan s s') : StaleOnly stale s' := by
  cases hs with
  | listenOk _ _ => nofun
  | deferShutdown _ _ =>
      unfold shutdownNow
      split_ifs
      · exact h
      · exact fun hl => by cases hl
      · exact h
  | shutdownClose _ => nofun
  | removeStale _ | deferRemove _ => exact fun _ hf => by cases hf
  | _ => exact h

theorem Reachable.staleOnly (h : Reachable chan stale s) : StaleOnly stale s := by
  induction h with
  | init => exact fun _ h => h
  | step _ hs ih => exact ih.step hs

/-- Once `Serve` has returned `ErrServerRequestedShutdown`, the file at
`srv.addr` is gone. -/
def Cleaned (s : Server) : Prop := s.pc = .done .requestedShutdown → s.sockFile = false

/-- The deferred `os.Remove` deletes the file as `Serve` returns, and only
`net.Listen`, before `Serve` returns, creates one. -/
theorem Cleaned.step (h : Cleaned s) (hs : Step chan s s') : Cleaned s' := by
  intro hpc
  cases hs with
  | deferRemove _ | shutdownClose _ => rfl
  | shutdownQuit _ _ | shutdownLock _ _ | shutdownNil _ _ | shutdownLoad _ _ | connect _ | handle _ _ =>
      exact h hpc
  | store _ => cases chan <;> cases hpc
  | _ => cases hpc

theorem Reachable.cleaned (h : Reachable chan stale s) : Cleaned s := by
  induction h with
  | init => intro hpc; cases hpc
  | step _ hs ih => exact ih.step hs

/-- **`Serve` leaves no socket file of its own.** In every reachable state
where `Serve` has returned, a file at `srv.addr` remains only when `net.Listen`
failed and `Serve` returned its error, and the file is the stale one that
`os.Remove` could not delete; whatever `Shutdown` calls and clients do after,
no file appears. -/
theorem serve_returned_no_sockFile (h : Reachable chan stale s) {r : Result} (hr : s.pc = .done r) :
    s.sockFile = true → r = .listenError ∧ stale = true := by
  intro hf
  cases r with
  | listenError =>
      have hp := h.inv.pc
      rw [hr] at hp
      exact ⟨rfl, h.staleOnly hp.2 hf⟩
  | requestedShutdown => simp [h.cleaned hr] at hf

/-- A server whose `Serve` returned the error of `net.Listen`: the stale file at
`srv.addr` could not be removed. -/
def staleServer : Server := ⟨false, .absent, false, true, .done .listenError, .free, 0, []⟩

theorem reachable_staleServer : Reachable false true staleServer := by
  have h0 : Reachable false true (init true) := .init
  exact ((h0.step (.removeStaleFail rfl)).step (.listenFail rfl)).step (.failReturn rfl)

theorem serve_returned_stale_file :
    Reachable false true staleServer ∧ staleServer.pc = .done .listenError ∧ staleServer.sockFile = true ∧
      (staleServer.sockFile = true → Result.listenError = .listenError ∧ true = true) :=
  ⟨reachable_staleServer, rfl, rfl, serve_returned_no_sockFile reachable_staleServer rfl⟩

end Dagu.Sock
