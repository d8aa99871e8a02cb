import Mathlib.Data.Multiset.AddSub
import Mathlib.Data.Multiset.Count

/-!
# An abstract publish/subscribe broker

A broker remembers for each client the multiset of patterns it holds, and which clients
are connected where. What a client holds outlives its connections.
-/
namespace MessageBroker.PublishSubscribe

variable {φ ι π : Type*}

/-- Connections are pairs of a place and a client; both are used at most once. -/
structure Broker (φ ι π : Type*) where
  live : List (φ × ι)
  held : ι → Multiset π
  places : (live.map Prod.fst).Nodup
  clients : (live.map Prod.snd).Nodup

namespace Broker

def empty : Broker φ ι π := ⟨[], fun _ => 0, List.nodup_nil, List.nodup_nil⟩

/-- The places where something of interest to a held pattern is published. -/
def recipients (b : Broker φ ι π) (interest : π → Bool) : List φ :=
  (b.live.filter (fun c => 0 < (b.held c.2).countP (interest · = true))).map Prod.fst

theorem recipients_nodup (b : Broker φ ι π) (interest : π → Bool) :
    (b.recipients interest).Nodup :=
  b.places.sublist (List.filter_sublist.map _)

theorem mem_recipients {b : Broker φ ι π} {interest : π → Bool} {place : φ} :
    place ∈ b.recipients interest ↔
      ∃ client, (place, client) ∈ b.live ∧ ∃ p ∈ b.held client, interest p = true := by
  simp [recipients, Multiset.countP_pos]

variable [DecidableEq φ]

def leave (b : Broker φ ι π) (place : φ) : Broker φ ι π :=
  ⟨b.live.filter (·.1 ≠ place), b.held, b.places.sublist (List.filter_sublist.map _),
    b.clients.sublist (List.filter_sublist.map _)⟩

def clientOn (b : Broker φ ι π) (place : φ) : Option ι :=
  (b.live.find? (·.1 = place)).map Prod.snd

theorem clientOn_of_mem {b : Broker φ ι π} {place : φ} {client : ι}
    (h : (place, client) ∈ b.live) : b.clientOn place = some client := by
  have hfind : b.live.find? (·.1 = place) = some (place, client) := by
    cases hf : b.live.find? (·.1 = place) with
    | none =>
      have hne := List.find?_eq_none.mp hf _ h
      simp at hne
    | some c =>
      have hc : c.1 = place := by simpa using List.find?_some hf
      exact congrArg some (List.inj_on_of_nodup_map b.places (List.mem_of_find?_eq_some hf) h hc)
  rw [clientOn, hfind]
  rfl

@[simp] theorem live_leave (b : Broker φ ι π) (place : φ) :
    (b.leave place).live = b.live.filter (·.1 ≠ place) := rfl

@[simp] theorem held_leave (b : Broker φ ι π) (place : φ) : (b.leave place).held = b.held := rfl

variable [DecidableEq ι]

/-- A client that is connected already, or a place in use, is refused. -/
def enter (b : Broker φ ι π) (place : φ) (client : ι) : Broker φ ι π :=
  if h : place ∈ b.live.map Prod.fst ∨ client ∈ b.live.map Prod.snd then b
  else ⟨b.live ++ [(place, client)], b.held,
    by simpa using b.places.concat (fun hp => h (.inl hp)),
    by simpa using b.clients.concat (fun hc => h (.inr hc))⟩

/-- The client connected at a place changes what it holds. -/
def revise (b : Broker φ ι π) (place : φ) (f : Multiset π → Multiset π) : Broker φ ι π :=
  match b.clientOn place with
  | none => b
  | some client => { b with held := Function.update b.held client (f (b.held client)) }

theorem enter_of_connected {b : Broker φ ι π} {place : φ} {client : ι}
    (h : client ∈ b.live.map Prod.snd) : b.enter place client = b := dif_pos (.inr h)

theorem live_enter {b : Broker φ ι π} {place : φ} {client : ι}
    (hp : place ∉ b.live.map Prod.fst) (hc : client ∉ b.live.map Prod.snd) :
    (b.enter place client).live = b.live ++ [(place, client)] := by
  rw [enter, dif_neg (by simp only [hp, hc, or_self, not_false_eq_true])]

@[simp] theorem held_enter (b : Broker φ ι π) (place : φ) (client : ι) :
    (b.enter place client).held = b.held := by
  rw [enter]
  split <;> rfl

@[simp] theorem live_revise (b : Broker φ ι π) (place : φ) (f : Multiset π → Multiset π) :
    (b.revise place f).live = b.live := by
  rw [revise]
  split <;> rfl

theorem held_revise {b : Broker φ ι π} {place : φ} {client : ι} (h : (place, client) ∈ b.live)
    (f : Multiset π → Multiset π) :
    (b.revise place f).held = Function.update b.held client (f (b.held client)) := by
  rw [revise, clientOn_of_mem h]

section

variable {ψ : Type*}

/-- The same clients are connected and hold the same. -/
structure Alike (b : Broker φ ι π) (d : Broker ψ ι π) : Prop where
  held : b.held = d.held
  clients : ∀ client, client ∈ b.live.map Prod.snd ↔ client ∈ d.live.map Prod.snd

variable {b : Broker φ ι π} {d : Broker ψ ι π} {place : φ} {place' : ψ} {client : ι}

omit [DecidableEq φ] [DecidableEq ι] in
theorem place_unique {p : φ} (h : (place, client) ∈ b.live) (hp : (p, client) ∈ b.live) :
    place = p :=
  congrArg Prod.fst (List.inj_on_of_nodup_map b.clients h hp rfl)

omit [DecidableEq φ] [DecidableEq ι] in
theorem client_unique {x : ι} (h : (place, client) ∈ b.live) (hx : (place, x) ∈ b.live) :
    client = x :=
  congrArg Prod.snd (List.inj_on_of_nodup_map b.places h hx rfl)

omit [DecidableEq φ] [DecidableEq ι] in
/-- Corresponding places receive the same. -/
theorem Alike.recipients (h : Alike b d) (hb : (place, client) ∈ b.live)
    (hd : (place', client) ∈ d.live) (interest : π → Bool) :
    place ∈ b.recipients interest ↔ place' ∈ d.recipients interest := by
  rw [mem_recipients, mem_recipients]
  constructor
  · rintro ⟨x, hx, hp⟩
    obtain rfl := client_unique hb hx
    exact ⟨client, hd, h.held ▸ hp⟩
  · rintro ⟨x, hx, hp⟩
    obtain rfl := client_unique hd hx
    exact ⟨client, hb, h.held ▸ hp⟩

omit [DecidableEq ι] in
theorem mem_clients_leave (hb : (place, client) ∈ b.live) (x : ι) :
    x ∈ (b.leave place).live.map Prod.snd ↔ x ∈ b.live.map Prod.snd ∧ x ≠ client := by
  rw [live_leave]
  constructor
  · intro hx
    obtain ⟨e, he, rfl⟩ := List.mem_map.mp hx
    obtain ⟨hmem, hne⟩ := List.mem_filter.mp he
    refine ⟨List.mem_map_of_mem hmem, ?_⟩
    rintro rfl
    exact of_decide_eq_true hne (place_unique hmem hb)
  · rintro ⟨hx, hne⟩
    obtain ⟨e, he, rfl⟩ := List.mem_map.mp hx
    refine List.mem_map_of_mem (List.mem_filter.mpr ⟨he, decide_eq_true ?_⟩)
    rintro rfl
    exact hne (client_unique he hb)

variable [DecidableEq ψ]

omit [DecidableEq ι] in
theorem Alike.leave (h : Alike b d) (hb : (place, client) ∈ b.live)
    (hd : (place', client) ∈ d.live) : Alike (b.leave place) (d.leave place') where
  held := h.held
  clients := by
    intro x
    rw [mem_clients_leave hb, mem_clients_leave hd, h.clients]

theorem Alike.revise (h : Alike b d) (hb : (place, client) ∈ b.live)
    (hd : (place', client) ∈ d.live) (f : Multiset π → Multiset π) :
    Alike (b.revise place f) (d.revise place' f) where
  held := by rw [held_revise hb, held_revise hd, h.held]
  clients := by
    intro x
    rw [live_revise, live_revise, h.clients]

/-- Both refuse a client that is connected. -/
theorem Alike.enter (h : Alike b d) (hb : place ∉ b.live.map Prod.fst)
    (hd : place' ∉ d.live.map Prod.fst) (client : ι) :
    Alike (b.enter place client) (d.enter place' client) where
  held := by rw [held_enter, held_enter, h.held]
  clients := by
    intro x
    by_cases hc : client ∈ b.live.map Prod.snd
    · rw [enter_of_connected hc, enter_of_connected ((h.clients client).mp hc), h.clients]
    · have hc' : client ∉ d.live.map Prod.snd := fun hd => hc ((h.clients client).mpr hd)
      rw [live_enter hb hc, live_enter hd hc', List.map_append, List.map_append, List.mem_append,
        List.mem_append, h.clients]
      rfl

end

end Broker

end MessageBroker.PublishSubscribe
