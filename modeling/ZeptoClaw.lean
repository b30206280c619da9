import ZeptoClaw.Session.Types
import ZeptoClaw.Session.Path
import ZeptoClaw.Session.Manager
import ZeptoClaw.Session.List
import ZeptoClaw.Session.Invariant
import ZeptoClaw.Session.Keys
import ZeptoClaw.Session.Abstract
import ZeptoClaw.Session.Interleaving
import ZeptoClaw.Session.LocalStep
import ZeptoClaw.Session.Serializability
import ZeptoClaw.Session.AnySchedule
import ZeptoClaw.Tools.Json
import ZeptoClaw.Tools.Shell
