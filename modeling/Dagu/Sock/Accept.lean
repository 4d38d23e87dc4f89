import Dagu.Sock.Server

/-! # Accepted connections

`Serve` loads `quit` after every `Accept`, and returns at once when it is set
(lines 83–86). A connection `Accept` has just returned is then neither handed to
a handler nor closed: if `Shutdown` runs between `Accept` returning and the load
of `quit`, the connection stays open and unanswered after `Serve` has returned
(`accepted_conn_leaks`, `Leaked.step`).

That is the only way `Serve` loses a connection `Accept` returned. In every
reachable state an accepted connection still in `Serve`'s hands is the one it
is about to check `quit` for, or — once `Serve` has seen `quit` set — the single
one it dropped (`held_conn`). Connections that `Accept` never returned are
another matter: in a hung run they wait in the backlog of a listener nobody
closes (`Hung.run`).
-/

namespace Dagu.Sock

variable {chan stale : Bool} {s s' : Server} {l : List Conn} {i j : Nat}

/-- Connection `i` was returned by `Accept` and is still in `Serve`'s hands. -/
def Held (s : Server) (i : Nat) : Prop := s.conns[i]? = some .held

/-- `Serve` has returned `ErrServerRequestedShutdown`, and connection `i`, which
it accepted, is still open and unanswered. -/
def Leaked (s : Server) (i : Nat) : Prop := s.pc = .done .requestedShutdown ∧ Held s i

/-- `Serve` has seen `quit` set and is returning `ErrServerRequestedShutdown`. -/
def Pc.Returning : Pc → Prop
  | .deferShutdown | .deferRemove | .done .requestedShutdown => True
  | _ => False

theorem held_map_refuse : (l.map Conn.refuse)[i]? = some .held ↔ l[i]? = some .held := by
  rw [List.getElem?_map]
  cases l[i]? with
  | none => simp
  | some c => cases c <;> simp [Conn.refuse]

theorem held_append_pending : (l ++ [.pending])[i]? = some .held ↔ l[i]? = some .held := by
  rw [List.getElem?_append]
  split_ifs with h
  · rfl
  · rw [@List.getElem?_eq_none _ l i (by omega)]
    cases hk : i - l.length <;> simp

theorem held_set {c : Conn} (hc : c ≠ .held) :
    (l.set j c)[i]? = some .held ↔ i ≠ j ∧ l[i]? = some .held := by
  rw [List.getElem?_set]
  by_cases hij : j = i
  · subst hij; split_ifs <;> simp_all
  · simp [hij, Ne.symm hij]

theorem held_set_held :
    (l.set j .held)[i]? = some .held ↔ (i = j ∧ j < l.length) ∨ (i ≠ j ∧ l[i]? = some .held) := by
  rw [List.getElem?_set]
  by_cases hij : j = i
  · subst hij; split_ifs <;> simp_all
  · simp [hij, Ne.symm hij]

/-- A server in `Accept` on its open listener, before any `Shutdown`. -/
theorem exists_accepting (chan stale : Bool) :
    ∃ s, Reachable chan stale s ∧ s.pc = .accept ∧ s.listener = .listening ∧ s.conns = [] ∧
      s.quit = false ∧ s.mu = .free ∧ s.stored = true := by
  have h0 : Reachable chan stale (init stale) := .init
  have hstore := ((h0.step (.removeStale rfl)).step (.listenOk rfl rfl)).step (.store rfl)
  cases chan
  · exact ⟨_, hstore, rfl, rfl, rfl, rfl, rfl, rfl⟩
  · exact ⟨_, hstore.step (.send rfl), rfl, rfl, rfl, rfl, rfl, rfl⟩

/-- **An accepted connection outlives `Serve`.** A client dials, `Accept`
returns its connection, `Shutdown` runs to completion, and `Serve` sees `quit`
and returns without handing the connection on or closing it. -/
theorem accepted_conn_leaks (chan stale : Bool) : ∃ s, Reachable chan stale s ∧ Leaked s 0 := by
  obtain ⟨s, hs, hpc, hl, hc, hq, hm, hst⟩ := exists_accepting chan stale
  have hacc := (hs.step (.connect hl)).step (.accept 0 hpc (by simp [hc]))
  have hret := (((((hacc.step (.shutdownLock hm hq)).step (.shutdownLoad rfl hst)).step
    (.shutdownClose rfl)).step (.quitSeen rfl rfl)).step (.deferShutdown rfl rfl)).step
    (.deferRemove rfl)
  refine ⟨_, hret, rfl, ?_⟩
  simp [Held, shutdownNow, closeListener, hc, Conn.refuse]

/-- A leaked connection stays leaked: nothing after `Serve`'s return closes it. -/
theorem Leaked.step (h : Leaked s i) (hs : Step chan s s') : Leaked s' i := by
  obtain ⟨hpc, hi⟩ := h
  cases hs with
  | shutdownQuit _ _ | shutdownLock _ _ | shutdownNil _ _ | shutdownLoad _ _ => exact ⟨hpc, hi⟩
  | shutdownClose _ => exact ⟨hpc, held_map_refuse.mpr hi⟩
  | connect _ => exact ⟨hpc, held_append_pending.mpr hi⟩
  | handle k hk =>
      have hne : Conn.closed ≠ .held := nofun
      refine ⟨hpc, (held_set hne).mpr ⟨fun he => ?_, hi⟩⟩
      subst he
      exact absurd ((Eq.symm hi).trans hk) (by simp)
  | _ hpc' => simp_all

/-! ## Only the quit check drops a connection -/

/-- Where an accepted connection still in `Serve`'s hands can be. -/
structure HeldInv (s : Server) : Prop where
  held : ∀ i, Held s i → s.pc = .check (some i) ∨ (s.pc.Returning ∧ ∀ j, Held s j → j = i)
  check : ∀ i, s.pc = .check (some i) → Held s i

theorem HeldInv.none (hi : HeldInv s) (hpc : ∀ i, s.pc ≠ .check (some i)) (hr : ¬ s.pc.Returning) :
    Held s i → False := fun h => (hi.held i h).elim (hpc i) (hr ·.1)

/-- Away from the quit check, a held connection means `Serve` is returning. -/
theorem HeldInv.at_check (hi : HeldInv s) (hr : ¬ s.pc.Returning) (h : Held s i) :
    s.pc = .check (some i) :=
  (hi.held i h).resolve_right (hr ·.1)

/-- A connection in state `c` is not held. -/
theorem not_held_of {c : Conn} (hc : c ≠ .held) (h : s.conns[i]? = some c) : ¬ Held s i :=
  fun h' => hc (Option.some.inj (h.symm.trans h'))

/-- Relabelling the connections without creating a held one keeps the invariant. -/
theorem HeldInv.conns (hi : HeldInv s) (hc : ∀ i, Held s' i ↔ Held s i)
    (hpc : s'.pc = s.pc) : HeldInv s' :=
  ⟨fun i h => by simpa only [hpc, hc] using hi.held i ((hc i).mp h),
   fun i h => (hc i).mpr (hi.check i (hpc ▸ h))⟩

theorem HeldInv.step (hi : HeldInv s) (hinv : Inv s) (hs : Step chan s s') : HeldInv s' := by
  have hp := hinv.pc
  cases hs with
  | removeStale hpc | removeStaleFail hpc | listenOk hpc _ | listenFail hpc | send hpc | failReturn hpc
  | acceptError hpc | store hpc =>
      refine ⟨fun i h => absurd (hi.at_check (by simp [hpc, Pc.Returning]) h) (by simp [hpc]), ?_⟩
      cases chan <;> simp
  | retry hpc _ =>
      exact ⟨fun i h => absurd (hi.at_check (by simp [hpc, Pc.Returning]) h) (by simp [hpc]),
        by simp⟩
  | accept k hpc hpend =>
      have hk : k < s.conns.length := by
        by_contra hlt
        rw [List.getElem?_eq_none (by omega)] at hpend
        cases hpend
      refine ⟨fun i h => ?_, fun i h => held_set_held.mpr (.inl ⟨by simpa using h.symm, hk⟩)⟩
      rcases held_set_held.mp h with ⟨rfl, -⟩ | ⟨-, hold⟩
      · exact .inl rfl
      · exact absurd (hi.at_check (by simp [hpc, Pc.Returning]) hold) (by simp [hpc])
  | quitSeen hpc _ =>
      have hr : ¬ s.pc.Returning := by simp [hpc, Pc.Returning]
      refine ⟨fun i h => .inr ⟨trivial, fun j hj => ?_⟩, by simp⟩
      simpa using (hi.at_check hr hj).symm.trans (hi.at_check hr h)
  | handOff hpc _ =>
      have hne : Conn.handling ≠ .held := nofun
      refine ⟨fun i h => ?_, by simp⟩
      obtain ⟨hik, hold⟩ := (held_set hne).mp h
      exact absurd ((hi.at_check (by simp [hpc, Pc.Returning]) hold).symm.trans hpc) (by simpa using hik)
  | deferShutdown hpc _ =>
      rw [hpc] at hp
      rw [shutdownNow_of_quit hp.2.2]
      refine ⟨fun i h => .inr ⟨trivial, ?_⟩, by simp⟩
      rcases hi.held i h with h' | h'
      · simp [hpc] at h'
      · exact h'.2
  | deferRemove hpc =>
      refine ⟨fun i h => .inr ⟨trivial, ?_⟩, by simp⟩
      rcases hi.held i h with h' | h'
      · simp [hpc] at h'
      · exact h'.2
  | shutdownQuit _ _ | shutdownLock _ _ | shutdownNil _ _ | shutdownLoad _ _ =>
      exact hi.conns (fun _ => Iff.rfl) rfl
  | shutdownClose _ => exact hi.conns (fun _ => held_map_refuse) rfl
  | connect _ => exact hi.conns (fun _ => held_append_pending) rfl
  | handle k hk =>
      have hne : Conn.closed ≠ .held := nofun
      have hk' : ¬ Held s k := not_held_of (by decide) hk
      refine hi.conns (fun i => ?_) rfl
      refine (held_set hne).trans ⟨fun h => h.2, fun h => ⟨?_, h⟩⟩
      rintro rfl
      exact hk' h

theorem Reachable.heldInv (h : Reachable chan stale s) : HeldInv s := by
  induction h with
  | init => exact ⟨fun i h => by simp [Held, Sock.init] at h, fun i h => by simp [Sock.init] at h⟩
  | step hr hs ih => exact ih.step hr.inv hs

/-- **Only the quit check drops a connection.** In every reachable state, a
connection `Accept` returned that is still in `Serve`'s hands is the one whose
`quit` check is next, or `Serve` has seen `quit` and is returning, and then it
is the only such connection. -/
theorem held_conn (h : Reachable chan stale s) (hi : Held s i) :
    s.pc = .check (some i) ∨ (s.pc.Returning ∧ ∀ j, Held s j → j = i) :=
  h.heldInv.held i hi

/-- `Accept` has just returned the first connection. -/
def acceptedServer : Server := ⟨false, .listening, true, true, .check (some 0), .free, 0, [.held]⟩

theorem reachable_acceptedServer : Reachable false false acceptedServer := by
  have h0 : Reachable false false (init false) := .init
  exact ((((h0.step (.removeStale rfl)).step (.listenOk rfl rfl)).step (.store rfl)).step (.connect rfl)).step
    (.accept 0 rfl rfl)

theorem held_conn_accepted :
    Reachable false false acceptedServer ∧ Held acceptedServer 0 ∧
      (acceptedServer.pc = .check (some 0) ∨
        (acceptedServer.pc.Returning ∧ ∀ j, Held acceptedServer j → j = 0)) :=
  ⟨reachable_acceptedServer, rfl, held_conn reachable_acceptedServer rfl⟩

end Dagu.Sock
