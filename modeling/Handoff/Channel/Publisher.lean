import Handoff.Channel

/-! What a publisher does with a record: he looks for a stop, sends, and reads what comes back. -/
namespace Handoff.Channel

def post (c : Channel) (m : Message) : Except Message Unit × Channel :=
  if c.isOpen then (.ok (), c.send m) else (.error m, c)

/-- Second half of a publication, after a look for a stop. Nothing but a record that comes back is
handed back. -/
def offerAfter (c : Channel) (sawStop : Bool) (r : Record) : Except Record Unit × Channel :=
  if sawStop then (.error r, c)
  else match c.post (.record r) with
    | (.error (.record back), d) => (.error back, d)
    | (_, d) => (.ok (), d)

def offer (c : Channel) (r : Record) : Except Record Unit × Channel := c.offerAfter c.isStopped r

variable {c : Channel}

theorem offerAfter_eq_error {sawStop : Bool} (h : sawStop = true ∨ c.isOpen = false) (r : Record) :
    c.offerAfter sawStop r = (.error r, c) := by
  rcases h with rfl | ho
  · rfl
  · cases sawStop <;> simp [offerAfter, post, ho]

theorem offerAfter_eq_ok {sawStop : Bool} (hs : sawStop = false) (ho : c.isOpen = true)
    (r : Record) :
    c.offerAfter sawStop r = (.ok (), { c with messages := c.messages ++ [.record r] }) := by
  simp [offerAfter, post, send, hs, ho]

/-- A publisher who is asked to publish makes a record, and releases it if it is handed back. -/
theorem publish_eq_offer {p : Nat} (hp : c.isAlive p) (id : UInt32) :
    c.publish (.publish p id) =
      match offer { c with made := c.made + 1 } ⟨id, c.made⟩ with
      | (.ok _, d) => (d, [.published ⟨id, c.made⟩])
      | (.error back, d) => (d, [.rejected back, .released back]) := by
  cases hs : c.isStopped with
  | true => simp [publish, hp, accepts, hs, offer, offerAfter]
  | false =>
    cases ho : c.isOpen with
    | true => simp [publish, hp, accepts, hs, ho, offer, offerAfter, post]
    | false => simp [publish, hp, accepts, hs, ho, offer, offerAfter, post]

end Handoff.Channel
