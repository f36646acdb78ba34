/- GID: FiveAM/Bridge/Exchanges
   source: kernel/src/ai.rs, bridge/bridge.py
   digest: Kernel and bridge over two lines: whose reply an exchange prints. -/

import FiveAM.Bridge.Requests

set_option autoImplicit false
set_option relaxedAutoImplicit false

namespace FiveAM.Bridge.Exchanges

open FiveAM.Bridge.Framing FiveAM.Bridge.Requests
open FiveAM.Lib.Utf8 (ofChar)

section System

def replyTimeoutTicks : Nat := 18 * 90

structure Question where
  text : List Char
  line : '\n' ∉ text

/-- `read_reply` under way: what was asked, the clock, the count of spins and what has been seen
of the reply. -/
structure Waiting where
  registers : Registers
  question : Question
  clock : Clock
  spins : Nat
  reader : Reader

inductive Kernel where
  | idle
  | waiting (w : Waiting)

/-- `read_request` with its buffer, or `answer`. -/
inductive Server where
  | reading (buffer : List UInt8)
  | answering (request : Request)

/-- An exchange that is over: what it asked, the replies that were made meanwhile, and how
`read_reply` returned. -/
structure Exchange where
  registers : Registers
  question : Question
  made : List (Request × Text)
  reply : Reply

structure Machine where
  ticks : Nat
  kernel : Kernel
  toBridge : List UInt8
  server : Server
  toKernel : List UInt8
  /-- What `try_recv` finds. -/
  arrived : List UInt8
  /-- The replies made since the last request was sent. -/
  made : List (Request × Text)
  /-- The exchanges that are over, the last one first. -/
  log : List Exchange

def boot : Machine := ⟨0, .idle, [], .reading [], [], [], [], []⟩

inductive Event where
  | tick
  | ask (r : Registers) (question : Question) (interrupts : Bool)
  | receive (count : Nat)
  | reply (text : Text)
  | arrive
  | poll

def Machine.polled (m : Machine) : Poll :=
  match m.arrived with
  | [] => .nothing m.ticks
  | byte :: _ => .received byte

def Machine.close (m : Machine) (w : Waiting) (reply : Reply) : Machine :=
  { m with kernel := .idle, arrived := m.arrived.tail,
           log := ⟨w.registers, w.question, m.made, reply⟩ :: m.log }

def step (m : Machine) : Event → Option Machine
  | .tick => some { m with ticks := m.ticks + 1 }
  | .ask r question interrupts =>
      match m.kernel with
      | .waiting _ => none
      | .idle =>
          -- what has arrived so far is drained first
          let clock := ⟨interrupts, m.ticks + replyTimeoutTicks⟩
          some { m with kernel := .waiting ⟨r, question, clock, 0, start⟩, arrived := [],
                        toBridge := m.toBridge ++ Requests.ask r question.text, made := [] }
  | .receive count =>
      match m.server with
      | .answering _ => none
      | .reading buffer =>
          let chunk := m.toBridge.take count
          if chunk = [] ∨ 4096 < count then none
          else
            let server := match readRequest buffer [chunk] with
              | some (request, _) => .answering request
              | none => .reading (buffer ++ chunk)
            some { m with server := server, toBridge := m.toBridge.drop count }
  | .reply text =>
      match m.server with
      | .reading _ => none
      | .answering request =>
          some { m with server := .reading [], toKernel := m.toKernel ++ sendReply text,
                        made := m.made ++ [(request, text)] }
  | .arrive =>
      match m.toKernel with
      | [] => none
      | byte :: rest => some { m with toKernel := rest, arrived := m.arrived ++ [byte] }
  | .poll =>
      match m.kernel with
      | .idle => none
      | .waiting w =>
          match readFrom w.clock w.spins w.reader [m.polled] with
          | .reading reader =>
              let spins := if m.arrived = [] then w.spins + 1 else 0
              some { m with kernel := .waiting { w with spins := spins, reader := reader },
                            arrived := m.arrived.tail }
          | ended => some (m.close w ended)

def run (m : Machine) (es : List Event) : Option Machine := es.foldlM step m

def Settled (m : Machine) : Prop :=
  m.toBridge = [] ∧ m.server = .reading [] ∧ m.toKernel = []

def TimedOut (m : Machine) : Prop :=
  ∃ x ∈ m.log.head?, ∃ printed rest, x.reply = .noAnswer printed rest

/-- After an exchange that nobody answered the next one waits until nothing is under way, and no
line of a reply ends it early. -/
def Careful (m : Machine) : Event → Prop
  | .ask _ _ _ => TimedOut m → Settled m
  | .reply text => NoEarlyEnd text
  | _ => True

inductive Reached : Machine → Prop where
  | boot : Reached boot
  | step {m m' : Machine} {e : Event} : Reached m → Careful m e → step m e = some m' → Reached m'

def expected (r : Registers) (question : Question) : Request :=
  ⟨text "ASK", (stateText r).map ofChar, (question.text.filter fun c => c ≠ '\r').map ofChar⟩

/-- At most one reply was made, to what was asked; and what is taken for the answer is that
reply, whole. -/
def Matched (x : Exchange) : Prop :=
  x.made = [] ∧ (∃ printed rest, x.reply = .noAnswer printed rest) ∨
    ∃ text, x.made = [(expected x.registers x.question, text)] ∧
      ((∃ printed rest, x.reply = .noAnswer printed rest) ∨
        x.reply = .answered (withoutReturns (body text) ++ [10]) [])

end System

section Replies

private theorem reply_end {text : Text} (fine : NoEarlyEnd text) {taken more : List UInt8}
    {byte : UInt8} {reader : Reader} (whole : taken ++ byte :: more = sendReply text)
    (seen : taken.foldlM feed start = some reader) (ended : feed reader byte = none) :
    more = [] ∧ reader.printed = withoutReturns (body text) := by
  obtain ⟨-, run⟩ | ⟨early, -⟩ := body_run text
  · have before : (body text ++ [69, 78, 68]).foldlM feed start =
        some ⟨true, 3, withoutReturns (body text)⟩ := by
      rw [List.foldlM_append, run]
      rfl
    have last : sendReply text = body text ++ [69, 78, 68] ++ [10] := by
      rw [sendReply, List.append_assoc]
      rfl
    rcases List.eq_nil_or_concat' more with rfl | ⟨front, b, rfl⟩
    · obtain ⟨same, -⟩ := List.append_inj' (whole.trans last) rfl
      rw [same, before] at seen
      obtain rfl := Option.some.inj seen
      exact ⟨rfl, rfl⟩
    · have inside : taken ++ byte :: front = body text ++ [69, 78, 68] := by
        have ends : taken ++ byte :: front ++ [b] = body text ++ [69, 78, 68] ++ [10] := by
          rw [← last, ← whole, List.append_assoc, List.cons_append]
        exact (List.append_inj' ends rfl).1
      rw [← inside, List.foldlM_append, seen, Option.bind_eq_bind, Option.bind_some,
        List.foldlM_cons, ended] at before
      cases before
  · exact absurd fine early

end Replies

section Runs

/-- Where an exchange stands, after so many bytes of the reply: its request is on the way, or
read, or a reply to it is. -/
inductive Phase (m : Machine) (r : Registers) (question : Question) : List UInt8 → Prop where
  | requested (front : List UInt8) (server : m.server = .reading front)
      (whole : front ++ m.toBridge = Requests.ask r question.text) (more : m.toBridge ≠ [])
      (made : m.made = []) (toKernel : m.toKernel = []) (arrived : m.arrived = []) :
      Phase m r question []
  | read (server : m.server = .answering (expected r question)) (toBridge : m.toBridge = [])
      (made : m.made = []) (toKernel : m.toKernel = []) (arrived : m.arrived = []) :
      Phase m r question []
  | replied (text : Text) (taken : List UInt8) (fine : NoEarlyEnd text)
      (server : m.server = .reading []) (toBridge : m.toBridge = [])
      (made : m.made = [(expected r question, text)])
      (whole : taken ++ (m.arrived ++ m.toKernel) = sendReply text) : Phase m r question taken

/-- The exchange under way stands at one of its phases, and between exchanges nothing is under
way, but after one that nobody answered. -/
structure Inv (m : Machine) : Prop where
  idle : m.kernel = .idle → ¬TimedOut m → Settled m ∧ m.arrived = []
  waiting : ∀ w, m.kernel = .waiting w →
    ∃ taken, Phase m w.registers w.question taken ∧ taken.foldlM feed start = some w.reader
  log : ∀ x ∈ m.log, Matched x

variable {m m' : Machine}

private theorem Phase.congr {r : Registers} {question : Question} {taken : List UInt8}
    (phase : Phase m r question taken) (toBridge : m'.toBridge = m.toBridge)
    (server : m'.server = m.server) (toKernel : m'.toKernel = m.toKernel)
    (arrived : m'.arrived = m.arrived) (made : m'.made = m.made) : Phase m' r question taken := by
  cases phase with
  | requested front reading whole more none flying waiting =>
      exact .requested front (server.trans reading) (toBridge ▸ whole) (toBridge ▸ more)
        (made.trans none) (toKernel.trans flying) (arrived.trans waiting)
  | read answering sent none flying waiting =>
      exact .read (server.trans answering) (toBridge.trans sent) (made.trans none)
        (toKernel.trans flying) (arrived.trans waiting)
  | replied text _ fine reading sent one whole =>
      exact .replied text taken fine (server.trans reading) (toBridge.trans sent)
        (made.trans one) (arrived ▸ toKernel ▸ whole)

private theorem inv_boot : Inv boot :=
  ⟨fun _ _ => ⟨⟨rfl, rfl, rfl⟩, rfl⟩, fun _ held => (by cases held), List.forall_mem_nil _⟩

private theorem inv_tick (inv : Inv m) (moved : step m .tick = some m') : Inv m' := by
  obtain rfl := Option.some.inj moved
  refine ⟨inv.idle, fun w held => ?_, inv.log⟩
  obtain ⟨seen, phase, run⟩ := inv.waiting w held
  exact ⟨seen, phase.congr rfl rfl rfl rfl rfl, run⟩

private theorem ask_nonempty (r : Registers) (q : List Char) : Requests.ask r q ≠ [] := by
  simp [Requests.ask, exchange, writeLine]

private theorem inv_ask {r : Registers} {question : Question} {on : Bool} (inv : Inv m)
    (careful : TimedOut m → Settled m) (moved : step m (.ask r question on) = some m') :
    Inv m' := by
  cases held : m.kernel with
  | waiting w => simp [step, held] at moved
  | idle =>
      simp only [step, held, Option.some.injEq] at moved
      obtain ⟨toBridge, server, toKernel⟩ : Settled m := by
        by_cases timedOut : TimedOut m
        · exact careful timedOut
        · exact (inv.idle held timedOut).1
      subst moved
      refine ⟨fun idle => (by cases idle), fun w same => ?_, inv.log⟩
      obtain rfl := Kernel.waiting.inj same
      refine ⟨[], .requested [] server ?_ ?_ rfl toKernel rfl, rfl⟩
      · exact congrArg (· ++ _) toBridge
      · exact fun none => ask_nonempty r question.text (List.append_eq_nil_iff.mp none).2

private theorem inv_receive {count : Nat} (inv : Inv m)
    (moved : step m (.receive count) = some m') : Inv m' := by
  cases reading : m.server with
  | answering request => simp [step, reading] at moved
  | reading buffer =>
      simp only [step, reading] at moved
      split_ifs at moved with cannot
      obtain rfl := Option.some.inj moved
      rw [not_or] at cannot
      have some' : m.toBridge ≠ [] := fun none => cannot.1 (by rw [none, List.take_nil])
      refine ⟨fun idle timedOut => ?_, fun w held => ?_, inv.log⟩
      · exact absurd (inv.idle idle timedOut).1.1 some'
      · obtain ⟨seen, phase, run⟩ := inv.waiting w held
        cases phase with
        | read server toBridge made toKernel arrived => exact absurd toBridge some'
        | replied text _ fine server toBridge made whole => exact absurd toBridge some'
        | requested front server whole more made toKernel arrived =>
            obtain rfl := Server.reading.inj (reading.symm.trans server)
            refine ⟨[], ?_, run⟩
            have line := w.question.line
            have waits : ¬ complete buffer = true := fun full =>
              more ((complete_only line whole).mp full)
            have split : (buffer ++ m.toBridge.take count) ++ m.toBridge.drop count =
                Requests.ask w.registers w.question.text := by
              rw [List.append_assoc, List.take_append_drop]
              exact whole
            have next : readRequest buffer [m.toBridge.take count] =
                if complete (buffer ++ m.toBridge.take count) then
                  some (parse (buffer ++ m.toBridge.take count), []) else none := by
              rw [readRequest, if_neg waits, if_neg cannot.1, readRequest]
            by_cases full : complete (buffer ++ m.toBridge.take count) = true
            · have rest := (complete_only line split).mp full
              rw [rest, List.append_nil] at split
              refine .read ?_ rest made toKernel arrived
              simp only [next, full, if_true]
              rw [split, parse_ask line]
              rfl
            · refine .requested _ ?_ split ?_ made toKernel arrived
              · simp only [next, full, if_false, Bool.false_eq_true]
              · exact fun rest => full ((complete_only line split).mpr rest)

private theorem inv_reply {text : Text} (inv : Inv m) (fine : NoEarlyEnd text)
    (moved : step m (.reply text) = some m') : Inv m' := by
  cases answering : m.server with
  | reading buffer => simp [step, answering] at moved
  | answering request =>
      simp only [step, answering, Option.some.injEq] at moved
      subst moved
      refine ⟨fun idle timedOut => ?_, fun w held => ?_, inv.log⟩
      · have reading := (inv.idle idle timedOut).1.2.1
        rw [answering] at reading
        cases reading
      · obtain ⟨seen, phase, run⟩ := inv.waiting w held
        refine ⟨seen, ?_, run⟩
        cases phase with
        | requested front server => cases answering.symm.trans server
        | replied text _ fine server => cases answering.symm.trans server
        | read server toBridge made toKernel arrived =>
            obtain rfl := Server.answering.inj (answering.symm.trans server)
            refine .replied text [] fine rfl toBridge ?_ ?_
            · exact congrArg (· ++ _) made
            · simp only [arrived, toKernel, List.nil_append]

private theorem inv_arrive (inv : Inv m) (moved : step m .arrive = some m') : Inv m' := by
  cases flying : m.toKernel with
  | nil => simp [step, flying] at moved
  | cons byte rest =>
      simp only [step, flying, Option.some.injEq] at moved
      subst moved
      have some' : m.toKernel ≠ [] := by rw [flying]; exact List.cons_ne_nil _ _
      refine ⟨fun idle timedOut => ?_, fun w held => ?_, inv.log⟩
      · exact absurd (inv.idle idle timedOut).1.2.2 some'
      · obtain ⟨seen, phase, run⟩ := inv.waiting w held
        refine ⟨seen, ?_, run⟩
        cases phase with
        | requested front server whole more made toKernel => exact absurd toKernel some'
        | read server toBridge made toKernel => exact absurd toKernel some'
        | replied text _ fine server toBridge made whole =>
            refine .replied text seen fine server toBridge made ?_
            rw [← whole, flying, List.append_assoc, List.singleton_append]

private theorem poll_cases {w : Waiting} (held : m.kernel = .waiting w)
    (moved : step m .poll = some m') :
    (m.arrived = [] ∧ (m' = m.close w (.noAnswer (w.reader.printed ++ [10]) []) ∨
      m' = { m with kernel := .waiting { w with spins := w.spins + 1 } })) ∨
    ∃ byte rest, m.arrived = byte :: rest ∧
      (feed w.reader byte = none ∧ m' = m.close w (.answered (w.reader.printed ++ [10]) []) ∨
        ∃ reader, feed w.reader byte = some reader ∧
          m' = { m with kernel := .waiting { w with spins := 0, reader := reader },
                        arrived := rest }) := by
  cases found : m.arrived with
  | nil =>
      refine Or.inl ⟨rfl, ?_⟩
      simp only [step, held, Machine.polled, found, readFrom] at moved
      split_ifs at moved with late
      · exact Or.inl (Option.some.inj moved).symm
      · exact Or.inr (Option.some.inj moved).symm
  | cons byte rest =>
      refine Or.inr ⟨byte, rest, rfl, ?_⟩
      simp only [step, held, Machine.polled, found, readFrom] at moved
      cases fed : feed w.reader byte with
      | none =>
          rw [fed] at moved
          exact Or.inl ⟨rfl, (Option.some.inj moved).symm⟩
      | some reader =>
          rw [fed] at moved
          exact Or.inr ⟨reader, rfl, (Option.some.inj moved).symm⟩

private theorem inv_late {w : Waiting} {printed : List UInt8} {rest : List Poll} (inv : Inv m)
    (held : m.kernel = .waiting w) : Inv (m.close w (.noAnswer printed rest)) := by
  refine ⟨fun _ timedOut => absurd ⟨_, rfl, printed, rest, rfl⟩ timedOut,
    fun _ same => (by cases same), List.forall_mem_cons.mpr ⟨?_, inv.log⟩⟩
  obtain ⟨seen, phase, -⟩ := inv.waiting w held
  cases phase with
  | requested front server whole more made => exact Or.inl ⟨made, printed, rest, rfl⟩
  | read server toBridge made => exact Or.inl ⟨made, printed, rest, rfl⟩
  | replied text _ fine server toBridge made =>
      exact Or.inr ⟨text, made, Or.inl ⟨printed, rest, rfl⟩⟩

private theorem inv_answered {w : Waiting} {byte : UInt8} {rest : List UInt8} (inv : Inv m)
    (held : m.kernel = .waiting w) (found : m.arrived = byte :: rest)
    (ended : feed w.reader byte = none) :
    Inv (m.close w (.answered (w.reader.printed ++ [10]) [])) := by
  have some' : m.arrived ≠ [] := by rw [found]; exact List.cons_ne_nil _ _
  obtain ⟨seen, phase, run⟩ := inv.waiting w held
  cases phase with
  | requested front server whole more made toKernel arrived => exact absurd arrived some'
  | read server toBridge made toKernel arrived => exact absurd arrived some'
  | replied text _ fine server toBridge made whole =>
      rw [found, List.cons_append] at whole
      obtain ⟨last, printed⟩ := reply_end fine whole run ended
      obtain ⟨none, toKernel⟩ := List.append_eq_nil_iff.mp last
      refine ⟨fun _ _ => ⟨⟨toBridge, server, toKernel⟩, ?_⟩, fun _ same => (by cases same),
        List.forall_mem_cons.mpr ⟨Or.inr ⟨text, made, Or.inr ?_⟩, inv.log⟩⟩
      · exact (congrArg List.tail found).trans none
      · rw [printed]

private theorem inv_poll (inv : Inv m) (moved : step m .poll = some m') : Inv m' := by
  cases held : m.kernel with
  | idle => simp [step, held] at moved
  | waiting w =>
      obtain ⟨none, rfl | rfl⟩ | ⟨byte, rest, found, ⟨ended, rfl⟩ | ⟨reader, fed, rfl⟩⟩ :=
        poll_cases held moved
      · exact inv_late inv held
      · refine ⟨fun idle => (by cases idle), fun v same => ?_, inv.log⟩
        obtain rfl := Kernel.waiting.inj same
        obtain ⟨seen, phase, run⟩ := inv.waiting w held
        exact ⟨seen, phase.congr rfl rfl rfl rfl rfl, run⟩
      · exact inv_answered inv held found ended
      · refine ⟨fun idle => (by cases idle), fun v same => ?_, inv.log⟩
        obtain rfl := Kernel.waiting.inj same
        obtain ⟨seen, phase, run⟩ := inv.waiting w held
        have some' : m.arrived ≠ [] := by rw [found]; exact List.cons_ne_nil _ _
        cases phase with
        | requested front server whole more made toKernel arrived => exact absurd arrived some'
        | read server toBridge made toKernel arrived => exact absurd arrived some'
        | replied text _ fine server toBridge made whole =>
            refine ⟨seen ++ [byte], .replied text _ fine server toBridge made ?_, ?_⟩
            · rw [← whole, found, List.append_assoc]
              rfl
            · rw [List.foldlM_append, run]
              exact (congrArg (· >>= pure) fed).trans (bind_pure _)

private theorem inv_step {e : Event} (inv : Inv m) (careful : Careful m e)
    (moved : step m e = some m') : Inv m' := by
  cases e with
  | tick => exact inv_tick inv moved
  | ask r question on => exact inv_ask inv careful moved
  | receive count => exact inv_receive inv moved
  | reply text => exact inv_reply inv careful moved
  | arrive => exact inv_arrive inv moved
  | poll => exact inv_poll inv moved

theorem reached_inv (reached : Reached m) : Inv m := by
  induction reached with
  | boot => exact inv_boot
  | step _ careful moved ih => exact inv_step ih careful moved

/-- In every run in which a question after a timeout waits for the line to be quiet, what is
printed as an answer is the one reply that was made to that question, whole. -/
theorem answers_matched (reached : Reached m) : ∀ x ∈ m.log, Matched x :=
  (reached_inv reached).log

private theorem run_cons {e : Event} {es : List Event} :
    run m (e :: es) = some m' ↔ ∃ n, step m e = some n ∧ run n es = some m' := by
  rw [run, List.foldlM_cons, Option.bind_eq_bind, Option.bind_eq_some_iff]
  rfl

theorem reached_run {es : List Event} (reached : Reached m) (careful : ∀ e ∈ es, ∀ n, Careful n e)
    (moved : run m es = some m') : Reached m' := by
  induction es generalizing m with
  | nil => exact Option.some.inj moved ▸ reached
  | cons e rest ih =>
      obtain ⟨n, one, more⟩ := run_cons.mp moved
      exact ih (reached.step (careful e List.mem_cons_self m) one)
        (fun e member => careful e (List.mem_cons_of_mem _ member)) more

/-- A question is answered `"ok"`, and its request and the reply arrive in pieces. -/
def okRun : List Event :=
  ([.tick, .receive 7, .poll, .receive 4096, .reply (text "ok")] : List Event) ++
    List.replicate 7 Event.arrive ++ List.replicate 7 Event.poll

theorem answers_matched_ok : ∃ m,
    run boot (.ask ⟨0, 0, 0, 0, 8, 0, 0⟩ ⟨['a'], by decide⟩ true :: okRun) = some m ∧
      m.log.length = 1 ∧ ∀ x ∈ m.log, Matched x := by
  have fine : NoEarlyEnd (text "ok") := by
    unfold NoEarlyEnd
    decide
  have quiet : ∀ e ∈ okRun, ∀ n, Careful n e := by
    simp only [okRun, List.replicate, List.cons_append, List.nil_append, List.forall_mem_cons]
    simp [Careful, fine]
  have logged : (run boot (.ask ⟨0, 0, 0, 0, 8, 0, 0⟩ ⟨['a'], by decide⟩ true :: okRun)).map
      (fun m => m.log.length) = some 1 := by decide +kernel
  obtain ⟨m, moved, one⟩ := Option.map_eq_some_iff.mp logged
  obtain ⟨n, first, rest⟩ := run_cons.mp moved
  have silent : ¬TimedOut boot := by
    rintro ⟨x, last, -⟩
    cases last
  have asked : Reached n := by
    refine Reached.boot.step ?_ first
    exact fun timedOut => absurd timedOut silent
  exact ⟨m, moved, one, answers_matched (reached_run asked quiet rest)⟩

/-- The second question does not wait: the first is answered too late, and what the bridge said to
it is printed as the answer to the second. -/
def lateRun : List Event :=
  ([.ask ⟨0, 0, 0, 0, 8, 0, 0⟩ ⟨['a'], by decide⟩ true, .receive 4096] : List Event) ++
    List.replicate 1621 Event.tick ++
    ([.poll, .ask ⟨0, 0, 0, 0, 8, 0, 0⟩ ⟨['b'], by decide⟩ true, .reply (text "ok")] : List Event) ++
    List.replicate 7 Event.arrive ++ List.replicate 7 Event.poll

example :
    (run boot lateRun).map (fun m => m.log.map fun x =>
      (x.question.text, x.made.map (fun p => p.1.question), x.reply)) =
    some [(['b'], [text "a"], .answered [111, 107, 10, 10] []),
      (['a'], [], .noAnswer [10] [])] := by
  decide +kernel

end Runs

end FiveAM.Bridge.Exchanges
