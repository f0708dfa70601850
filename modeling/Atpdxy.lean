import Atpdxy.Config.ListenerIds
import Atpdxy.Config.Sequences
import Atpdxy.Config.Shared
import Atpdxy.Config.Strings
import Atpdxy.Config.Twice
import Atpdxy.Fibers.Discipline
import Atpdxy.Fibers.Plain
import Atpdxy.Fibers.Reset
import Atpdxy.Log.Atomic
import Atpdxy.Log.Codec
import Atpdxy.Log.Compose
import Atpdxy.Log.Directive
import Atpdxy.Log.Dump
import Atpdxy.Log.Fallthrough
import Atpdxy.Log.Grammar
import Atpdxy.Log.Inherit
import Atpdxy.Log.Live
import Atpdxy.Log.Order
import Atpdxy.Log.Percent
import Atpdxy.Log.Reload
import Atpdxy.Log.Removed
import Atpdxy.Log.Reopen
import Atpdxy.Log.Shared
import Atpdxy.Log.Survive
import Atpdxy.Run.Guarded
import Atpdxy.Sched.Entries
import Atpdxy.Sched.Lifetime
import Atpdxy.Sched.Pointers
import Atpdxy.Sched.Refine
import Atpdxy.Sched.Root
import Atpdxy.Sched.Shutdown
import Atpdxy.Sched.Start
import Atpdxy.Sync.Handshake
import Atpdxy.Sync.Counter
import Atpdxy.Sync.Guards
import Atpdxy.Sync.Ranks
