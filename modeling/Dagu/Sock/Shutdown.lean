import Dagu.Sock.Server
import Mathlib.Logic.Relation

/-! # `Shutdown` against `Serve`

`Shutdown` sets `quit` and closes `srv.listener` if it is set; `Serve` reads
`quit` only when `Accept` returns. A call that runs before `Serve` has assigned
`srv.listener` — before `net.Listen`, or between `net.Listen` and the
assignment — finds it nil and closes nothing. `Serve` then stores the listener
and blocks in `Accept` on a listener nobody will close: the server stays up,
with its socket file on disk, until a client happens to connect
(`shutdown_before_store_hangs`, `Hung.run`).

A caller that first receives from the `listen` channel, as the agent does,
cannot start `Shutdown` that early. In every run where `quit` is first set once
`Serve` is past the send, a returned `Shutdown` leaves no listener open, and no
socket file unless `net.Listen` failed over a stale file that `os.Remove` could
not delete (`shutdown_after_bind_closes`).
-/

namespace Dagu.Sock

variable {chan stale : Bool} {s s' : Server}

/-- The state `Shutdown` is meant to rule out: a call has returned and `quit` is set,
yet `Serve` is in `Accept` on a listener that is still open. -/
def Hung (s : Server) : Prop :=
  0 < s.shutdowns ∧ s.quit = true ∧ s.pc = .accept ∧ s.listener = .listening

/-- **The hang is reachable**, with or without a `listen` channel and whether or
not a stale file was left: `Shutdown` runs to completion first, then `Serve`
removes the stale file, listens, and stores the listener. -/
theorem shutdown_before_store_hangs (chan stale : Bool) :
    ∃ s, Reachable chan stale s ∧ Hung s ∧ s.sockFile = true := by
  have h0 : Reachable chan stale (init stale) := .init
  have hstore := ((((h0.step (.shutdownLock rfl rfl)).step (.shutdownNil rfl rfl)).step
    (.removeStale rfl)).step (.listenOk rfl rfl)).step (.store rfl)
  cases chan
  · exact ⟨_, hstore, ⟨Nat.one_pos, rfl, rfl, rfl⟩, rfl⟩
  · exact ⟨_, hstore.step (.send rfl), ⟨Nat.one_pos, rfl, rfl, rfl⟩, rfl⟩

/-- From a hung state every step keeps `Serve` hung, except `Accept` returning —
with a client's connection, or an error — while the listener is still open. -/
theorem Hung.step (hr : Reachable chan stale s) (h : Hung s) (hs : Step chan s s') :
    Hung s' ∨ ∃ c, s'.pc = .check c ∧ s'.listener = .listening := by
  obtain ⟨hn, hq, hpc, hl⟩ := h
  have hm := (hr.inv.shutdowns_quit hn).2
  cases hs with
  | accept _ _ _ | acceptError _ => exact .inr ⟨_, rfl, hl⟩
  | shutdownQuit _ _ => exact .inl ⟨Nat.succ_pos _, hq, hpc, hl⟩
  | connect _ | handle _ _ => exact .inl ⟨hn, hq, hpc, hl⟩
  | shutdownLock _ hq' | handOff _ hq' | retry _ hq' => simp_all
  | shutdownNil hm' _ | shutdownLoad hm' _ | shutdownClose hm' => simp_all
  | _ hpc' => simp_all

/-- A step that is not `Accept` returning. -/
def StepNoAccept (chan : Bool) (s s' : Server) : Prop :=
  Step chan s s' ∧ ∀ c, s'.pc ≠ .check c

/-- **Nothing but a client unblocks a hung `Serve`:** along any run in which
`Accept` does not return, every later `Shutdown` returns at once and `Serve`
stays hung. -/
theorem Hung.run (hr : Reachable chan stale s) (h : Hung s)
    (hrun : Relation.ReflTransGen (StepNoAccept chan) s s') : Hung s' := by
  have : Reachable chan stale s' ∧ Hung s' := by
    induction hrun with
    | refl => exact ⟨hr, h⟩
    | tail _ hs ih =>
        obtain ⟨hr', h'⟩ := ih
        refine ⟨hr'.step hs.1, ?_⟩
        rcases h'.step hr' hs.1 with h'' | ⟨c, hc, -⟩
        · exact h''
        · exact absurd hc (hs.2 c)
  exact this.2

/-- The hung server: `Shutdown` returned before `Serve` stored its listener. -/
def hungServer : Server := ⟨true, .listening, true, true, .accept, .free, 1, []⟩

theorem reachable_hungServer : Reachable false false hungServer := by
  have h0 : Reachable false false (init false) := .init
  exact ((((h0.step (.shutdownLock rfl rfl)).step (.shutdownNil rfl rfl)).step (.removeStale rfl)).step
    (.listenOk rfl rfl)).step (.store rfl)

theorem hung_run_second_shutdown :
    Reachable false false hungServer ∧ Hung hungServer ∧
      Relation.ReflTransGen (StepNoAccept false) hungServer { hungServer with shutdowns := 2 } ∧
      Hung { hungServer with shutdowns := 2 } := by
  have hrun : Relation.ReflTransGen (StepNoAccept false) hungServer { hungServer with shutdowns := 2 } :=
    .single ⟨.shutdownQuit rfl rfl, fun _ h => by cases h⟩
  exact ⟨reachable_hungServer, ⟨Nat.one_pos, rfl, rfl, rfl⟩, hrun,
    Hung.run reachable_hungServer ⟨Nat.one_pos, rfl, rfl, rfl⟩ hrun⟩

/-! ## Callers that wait for the bind -/

/-- `Serve` is past the send on `listen`: in `Accept`, handling what it
returned, or returning. -/
def Pc.Bound : Pc → Prop
  | .accept | .check _ | .deferShutdown | .deferRemove | .done _ => True
  | .start | .listen | .store | .send | .failed => False

/-- The runs of a caller that receives from `listen` before it calls
`Shutdown`: `quit` is first set only once `Serve` is past the send. -/
inductive ReachableAfterBind (chan stale : Bool) : Server → Prop
  | init : ReachableAfterBind chan stale (init stale)
  | step {s s' : Server} : ReachableAfterBind chan stale s → Step chan s s' →
      (s.quit = false → s'.quit = true → s.pc.Bound) → ReachableAfterBind chan stale s'

theorem ReachableAfterBind.reachable (h : ReachableAfterBind chan stale s) : Reachable chan stale s := by
  induction h with
  | init => exact .init
  | step _ hs _ ih => exact ih.step hs

/-- What the runs after the bind keep, besides `Inv`: `quit` is set only past
the bind, and once the call that set it has returned, the listener is not
open and a stored listener's socket file is gone. -/
structure AfterBindInv (s : Server) : Prop where
  inv : Inv s
  quit_bound : s.quit = true → s.pc.Bound
  quit_closed : s.quit = true → s.mu = .free → s.listener ≠ .listening ∧ (s.stored = true → s.sockFile = false)

/-- Past the bind, a nil `srv.listener` means `net.Listen` failed and `Serve`
has returned its error. -/
theorem PcInv.unstored {pc : Pc} (h : PcInv s pc) (hb : pc.Bound) (hst : s.stored = false) :
    s.listener = .absent ∧ pc = .done .listenError := by
  cases pc <;> (try rename_i r; cases r) <;> simp_all [PcInv, Pc.Bound]

theorem AfterBindInv.quit_false (hi : AfterBindInv s) (h : ¬ s.pc.Bound) : s.quit = false := by
  by_contra hq
  exact h (hi.quit_bound (by simpa using hq))

theorem AfterBindInv.step (hi : AfterBindInv s) (hs : Step chan s s')
    (hc : s.quit = false → s'.quit = true → s.pc.Bound) : AfterBindInv s' := by
  have hinv := hi.inv.step hs
  have hp := hi.inv.pc
  cases hs with
  | removeStale hpc | removeStaleFail hpc | listenOk hpc _ | listenFail hpc | store hpc | send hpc
  | failReturn hpc =>
      have hq := hi.quit_false (by simp [hpc, Pc.Bound])
      exact ⟨hinv, fun h => by simp [hq] at h, fun h => by simp [hq] at h⟩
  | accept _ _ _ | acceptError _ | handOff _ _ | retry _ _ | quitSeen _ _ =>
      exact ⟨hinv, fun _ => by simp [Pc.Bound], hi.quit_closed⟩
  | deferShutdown hpc _ =>
      rw [hpc] at hp
      rw [shutdownNow_of_quit hp.2.2] at hinv ⊢
      exact ⟨hinv, fun _ => trivial, hi.quit_closed⟩
  | deferRemove _ => exact ⟨hinv, fun _ => trivial, fun h hm => ⟨(hi.quit_closed h hm).1, fun _ => rfl⟩⟩
  | shutdownQuit _ _ | connect _ | handle _ _ => exact ⟨hinv, hi.quit_bound, hi.quit_closed⟩
  | shutdownLock _ hq => exact ⟨hinv, fun _ => hc hq rfl, fun _ h => by simp at h⟩
  | shutdownNil hm hst =>
      have hb := hi.quit_bound (hi.inv.mu_quit (by simp [hm]))
      have hu := hp.unstored hb hst
      exact ⟨hinv, hi.quit_bound, fun _ _ => ⟨by simp [hu.1], fun h => by simp [hst] at h⟩⟩
  | shutdownLoad _ _ => exact ⟨hinv, hi.quit_bound, fun _ h => by simp at h⟩
  | shutdownClose _ => exact ⟨hinv, hi.quit_bound, fun _ _ => ⟨nofun, fun _ => rfl⟩⟩

theorem ReachableAfterBind.inv (h : ReachableAfterBind chan stale s) : AfterBindInv s := by
  induction h with
  | init => exact ⟨inv_init, fun h => by simp [Sock.init] at h, fun h => by simp [Sock.init] at h⟩
  | step _ hs hc ih => exact ih.step hs hc

/-- **After the bind, `Shutdown` closes the server.** In every run where `quit`
is first set once `Serve` is past the send on `listen`, a returned `Shutdown`
call leaves `quit` set and no open listener, and a `Serve` in `Accept` is on a
closed listener, so `Accept` returns at once. A file remains at `srv.addr` only
when `net.Listen` failed and `Serve` returned its error: the stale file that
`os.Remove` could not delete. -/
theorem shutdown_after_bind_closes (h : ReachableAfterBind chan stale s) (hn : 0 < s.shutdowns) :
    s.quit = true ∧ s.listener ≠ .listening ∧ (s.sockFile = true → s.pc = .done .listenError ∧ stale = true) ∧
      (s.pc = .accept → s.listener = .closed) := by
  have hi := h.inv
  obtain ⟨hq, hm⟩ := hi.inv.shutdowns_quit hn
  obtain ⟨hl, hf⟩ := hi.quit_closed hq hm
  refine ⟨hq, hl, fun hs => ?_, fun hpc => ?_⟩
  · cases hst : s.stored
    · obtain ⟨habs, hpc⟩ := hi.inv.pc.unstored (hi.quit_bound hq) hst
      exact ⟨hpc, h.reachable.staleOnly habs hs⟩
    · simp [hf hst] at hs
  have hp := hi.inv.pc
  rw [hpc] at hp
  cases hs : s.listener <;> simp_all [PcInv]

/-- `Serve` in `Accept` after a `Shutdown` that came after the bind. -/
def closedServer : Server := ⟨true, .closed, true, false, .accept, .free, 1, []⟩

theorem reachableAfterBind_closedServer : ReachableAfterBind false false closedServer := by
  have h0 : ReachableAfterBind false false (init false) := .init
  exact (((((h0.step (.removeStale rfl) fun _ h => by cases h).step (.listenOk rfl rfl) fun _ h => by cases h).step
    (.store rfl) fun _ h => by cases h).step (.shutdownLock rfl rfl) fun _ _ => trivial).step
    (.shutdownLoad rfl rfl) fun h _ => by cases h).step (.shutdownClose rfl) fun h _ => by cases h

theorem shutdown_after_bind_closes_run :
    ReachableAfterBind false false closedServer ∧ 0 < closedServer.shutdowns ∧
      closedServer.quit = true ∧ closedServer.listener ≠ .listening ∧
      (closedServer.sockFile = true → closedServer.pc = .done .listenError ∧ false = true) ∧
      (closedServer.pc = .accept → closedServer.listener = .closed) :=
  ⟨reachableAfterBind_closedServer, Nat.one_pos,
    shutdown_after_bind_closes reachableAfterBind_closedServer Nat.one_pos⟩

end Dagu.Sock
