import MessageBroker.RemovalLoop
import MessageBroker.ServerStops

/-!
# The array of descriptors given to `poll`

`sv_fds` is a block on the heap with a count and a capacity. Only the entries below the
count are kept; the size of the block decides whether a write lands in it.
-/
namespace MessageBroker.PollArray
open ServerStops

structure Pollfd where
  fd : ℕ
  events : ℕ
  deriving DecidableEq, Inhabited

def pollin : ℕ := 1
def sizeofPollfd : ℕ := 8
def backlogMax : ℕ := 64

structure SvFds where
  entries : List Pollfd
  capacity : ℕ
  blockBytes : ℕ
  deriving DecidableEq

namespace SvFds

def count (t : SvFds) : ℕ := t.entries.length

/-- `realloc` is asked for `capacity * 2` bytes, and is taken to succeed. -/
def grow (t : SvFds) : SvFds :=
  if t.count = t.capacity then
    { t with capacity := t.capacity * 2, blockBytes := t.capacity * 2 }
  else t

def addNewPollfdStruc (t : SvFds) (fd : ℕ) : Except Stop SvFds :=
  let t := t.grow
  if (t.count + 1) * sizeofPollfd ≤ t.blockBytes then
    .ok { t with entries := t.entries ++ [⟨fd, pollin⟩] }
  else .error .outsidePollBlock

/-- `-1` is `none`. -/
def getPollStrucByFd (t : SvFds) (fd : ℕ) : Option ℕ := t.entries.findIdx? (·.fd = fd)

/-- The loop of `handle_shutdown_sub` overwrites each entry from `idx` on by the next, and the last
one is given up. -/
def removeAt (t : SvFds) (idx : ℕ) : SvFds :=
  { t with entries := RemovalLoop.removeAt idx t.entries }

end SvFds

open SvFds

def pushBasicFds (tcpSock udpSock : ℕ) : Except Stop SvFds := do
  let t : SvFds := ⟨[], backlogMax, backlogMax * sizeofPollfd⟩
  let t ← t.addNewPollfdStruc 0
  let t ← t.addNewPollfdStruc tcpSock
  t.addNewPollfdStruc udpSock

theorem pushBasicFds_eq (tcpSock udpSock : ℕ) : pushBasicFds tcpSock udpSock =
    .ok ⟨[⟨0, pollin⟩, ⟨tcpSock, pollin⟩, ⟨udpSock, pollin⟩], 64, 512⟩ := rfl

/-- The table has never been grown, and the block is as large as its capacity. -/
structure SvFds.Initial (t : SvFds) : Prop where
  capacity : t.capacity = backlogMax
  block : t.blockBytes = backlogMax * sizeofPollfd
  room : t.count ≤ backlogMax

/-- Below the capacity an entry is appended. -/
theorem addNewPollfdStruc_of_room {t : SvFds} (h : t.Initial) (hlt : t.count < backlogMax)
    (fd : ℕ) :
    t.addNewPollfdStruc fd = .ok { t with entries := t.entries ++ [⟨fd, pollin⟩] } := by
  have hgrow : t.grow = t := by rw [grow, if_neg (by rw [h.capacity]; omega)]
  have hroom : (t.count + 1) * sizeofPollfd ≤ t.blockBytes := by
    rw [h.block]
    exact Nat.mul_le_mul_right _ (by omega)
  rw [addNewPollfdStruc, hgrow, if_pos hroom]

/-- At the capacity the block is resized to fewer bytes than the entries take. -/
theorem addNewPollfdStruc_of_full {t : SvFds} (h : t.Initial) (hfull : ¬ t.count < backlogMax)
    (fd : ℕ) : t.addNewPollfdStruc fd = .error .outsidePollBlock := by
  have hcount : t.count = backlogMax := Nat.le_antisymm h.room (not_lt.mp hfull)
  have hgrow : t.grow = { t with capacity := 128, blockBytes := 128 } := by
    rw [grow, if_pos (by rw [hcount, h.capacity]), h.capacity]
    rfl
  rw [addNewPollfdStruc, hgrow]
  apply if_neg
  simp only [count, backlogMax, sizeofPollfd] at hcount ⊢
  omega

theorem SvFds.Initial.add {t : SvFds} (h : t.Initial) (hlt : t.count < backlogMax)
    (e : Pollfd) : SvFds.Initial { t with entries := t.entries ++ [e] } where
  capacity := h.capacity
  block := h.block
  room := by
    simp only [count, List.length_append, List.length_singleton] at hlt ⊢
    omega

theorem removeAt_append (t : SvFds) {pre post : List Pollfd} {e : Pollfd}
    (h : t.entries = pre ++ e :: post) :
    t.removeAt pre.length = { t with entries := pre ++ post } := by
  rw [removeAt, h, RemovalLoop.removeAt_append]

/-- The first entry with the descriptor is found. -/
theorem getPollStrucByFd_eq (t : SvFds) {pre post : List Pollfd} {e : Pollfd}
    (h : t.entries = pre ++ e :: post) (hpre : ∀ d ∈ pre, d.fd ≠ e.fd) :
    t.getPollStrucByFd e.fd = some pre.length := by
  rw [getPollStrucByFd, h, List.findIdx?_append]
  rw [List.findIdx?_eq_none_iff.mpr (by simpa using hpre)]
  simp [List.findIdx?_cons]

end MessageBroker.PollArray
