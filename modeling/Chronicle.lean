import Chronicle.Auth.Xfcc
import Chronicle.Handler.JsonArray
import Chronicle.Handler.SseHub
import Chronicle.Memory.Cascade
import Chronicle.Memory.ForkContent
import Chronicle.Memory.Inert
import Chronicle.Memory.Producers
import Chronicle.Memory.Seals
import Chronicle.Redis.Config
import Chronicle.Redis.Create
import Chronicle.Redis.FenceRefinement
import Chronicle.Redis.ForkAnchor
import Chronicle.Redis.ForkRefs
import Chronicle.Redis.PageFetch
import Chronicle.Webhook.Coherence
import Chronicle.Webhook.ConfigHash
import Chronicle.Webhook.DirtyQueue
import Chronicle.Webhook.Done
import Chronicle.Webhook.Grammar
import Chronicle.Webhook.Isolation
import Chronicle.Webhook.Jws
import Chronicle.Webhook.MergeAcks
import Chronicle.Webhook.Migration
import Chronicle.Webhook.Provenance
import Chronicle.Webhook.Records
import Chronicle.Webhook.Rendezvous
import Chronicle.Webhook.Rollback
import Chronicle.Webhook.Rollout
import Chronicle.Webhook.Shards
import Chronicle.Webhook.SigningKeys
import Chronicle.Webhook.Sweep
