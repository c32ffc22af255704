import OpenServer.Composer.Lemmas.AcceptedRequests
import OpenServer.Composer.Lemmas.Calls
import OpenServer.Composer.Lemmas.Framing
import OpenServer.Processor.Lemmas.ProcessMessageQueue
import OpenServer.Processor.Lemmas.HandOver
import OpenServer.Dispatcher.Lemmas.Atomicity
import OpenServer.Dispatcher.Lemmas.OwnBuffers
import OpenServer.Dispatcher.Lemmas.CacheEntries
import OpenServer.Dispatcher.Lemmas.Transparency
import OpenServer.Dispatcher.Lemmas.FileRead
import OpenServer.Dispatcher.Lemmas.Indeterminate
import OpenServer.Dispatcher.Lemmas.Listing
import OpenServer.Dispatcher.Lemmas.PassedOver
import OpenServer.Dispatcher.Lemmas.ReadBack
import OpenServer.PollServer.Lemmas.Bounds
import OpenServer.PollServer.Lemmas.Compaction
import OpenServer.PollServer.Lemmas.FreshSlots
import OpenServer.PollServer.Lemmas.Listening
import OpenServer.PollServer.Lemmas.Pass
import OpenServer.Server.Lemmas.AnnouncedClose
import OpenServer.Server.Lemmas.Browse
import OpenServer.Server.Lemmas.CloseRequests
import OpenServer.Server.Lemmas.Conservation
import OpenServer.Server.Lemmas.Progress
import OpenServer.Server.Lemmas.Service
